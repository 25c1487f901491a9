import ZramUpgrade.Lz4.AnyInput

/-!
# Lz4.Plain — the safe decoder against a plain one

`plainDecode` reads an LZ4 block sequence by sequence and copies byte by byte; it knows no wild
copies, no shortcut and no room.  Whatever `LZ4_decompress_safe` accepts, it accepts with the same
text (`decompressSafe_plain`): the two run in step, the fast one with the text in front of `op`.
-/

namespace ZramUpgrade.Lz4

open Lib

/-! ## The reference decoder -/

/-- The extension bytes of a length: their sum, and what follows the first one below 255. -/
def plainExtra : List UInt8 → Option (ℕ × List UInt8)
  | [] => none
  | b :: rest =>
    if b = 255 then (plainExtra rest).map fun r => (255 + r.1, r.2) else some (b.toNat, rest)

/-- A length from its nibble in the token. -/
def plainLength (nibble : ℕ) (rest : List UInt8) : Option (ℕ × List UInt8) :=
  if nibble = 15 then (plainExtra rest).map fun r => (15 + r.1, r.2) else some (nibble, rest)

/-- A match of `n` bytes, one at a time; offset `0` stands for zeros. -/
def plainMatch (offset : ℕ) : ℕ → List UInt8 → List UInt8
  | 0, out => out
  | n + 1, out =>
    plainMatch offset n (out ++ [if offset = 0 then 0 else out.getD (out.length - offset) 0])

/-- What is left of the block, and the text so far. -/
structure PlainState where
  rest : List UInt8
  out : List UInt8

/-- One sequence; `none` for a block that breaks off or refers back too far. -/
def plainStep (st : PlainState) : Step PlainState (Option (List UInt8)) :=
  match st.rest with
  | [] => .done none
  | token :: rest =>
    match plainLength (token.toNat / 16) rest with
    | none => .done none
    | some (lit, rest) =>
      if rest.length < lit then .done none
      else
        let out := st.out ++ rest.take lit
        match rest.drop lit with
        | [] => .done (some out)
        | [_] => .done none
        | low :: high :: rest =>
          let offset := low.toNat + 256 * high.toNat
          match plainLength (token.toNat % 16) rest with
          | none => .done none
          | some (mc, rest) =>
            if out.length < offset then .done none
            else .next ⟨rest, plainMatch offset (mc + 4) out⟩

/-- The text of a block. -/
def plainDecode (block : List UInt8) : Option (List UInt8) :=
  (run plainStep (block.length + 1) ⟨block, []⟩).join

example : plainDecode [0x21, 7, 8, 2, 0, 0x10, 9] = some [7, 8, 7, 8, 7, 8, 7, 9] := by decide

/-! ## Lengths and copies -/

section Parts

variable {src : Mem} {n i v j nibble : ℕ}

theorem plainExtra_of (h : LenBytes src i v j) (hj : j ≤ n) :
    plainExtra ((bytes src n).drop i) = some (v, (bytes src n).drop j) := by
  induction hk : v using Nat.strong_induction_on generalizing i v with
  | _ k ih =>
    subst hk
    have hlt := h.lt
    rw [drop_bytes (by omega), plainExtra]
    by_cases hv : v < 255
    · have hr := h.rest
      have hl := h.last
      rw [Nat.div_eq_of_lt hv] at hr hl
      rw [Nat.add_zero, Nat.mod_eq_of_lt hv] at hr
      have hne : src i ≠ 255 := by
        intro he
        rw [he] at hr
        exact absurd hr (show (255 : UInt8).toNat ≠ v by simp; omega)
      rw [if_neg hne, hr, hl]
    · obtain ⟨w, rfl⟩ : ∃ w, v = w + 255 := ⟨v - 255, by omega⟩
      rw [if_pos h.head, ih w (by omega) h.tail rfl, Option.map_some, Nat.add_comm 255]

theorem plainLength_of (h : LenField src nibble i v j) (hj : j ≤ n) :
    plainLength nibble ((bytes src n).drop i) = some (v, (bytes src n).drop j) := by
  rw [plainLength]
  by_cases hn : nibble = 15
  · obtain ⟨hv, hb⟩ := h.long hn
    rw [if_pos hn, plainExtra_of hb hj, Option.map_some, Nat.add_sub_cancel' hv]
  · obtain ⟨hv, hi⟩ := h.short hn
    rw [if_neg hn, hv, hi]

/-- A byte-by-byte match writes the periodic extension of the text. -/
theorem plainMatch_bytes {p : Mem} {a off : ℕ} (hoff : off ≤ a) (k : ℕ) : ∀ d,
    plainMatch off k (bytes (extend p a off) (a + d)) = bytes (extend p a off) (a + d + k) := by
  induction k with
  | zero => intro d; rfl
  | succ k ih =>
    intro d
    have hb : (if off = 0 then 0 else
        (bytes (extend p a off) (a + d)).getD ((bytes (extend p a off) (a + d)).length - off) 0) =
        extend p a off (a + d) := by
      by_cases h0 : off = 0
      · rw [if_pos h0, extend, if_neg (by omega), if_pos h0]
      · rw [if_neg h0, List.getD_eq_getElem?_getD, List.getElem?_eq_getElem (by simp; omega),
          Option.getD_some, getElem_bytes, bytes_length, extend_period p (q := 1) (by omega) hoff (show a ≤ a + d by omega) (by omega) (by omega),
          Nat.one_mul]
    rw [plainMatch, hb, ← bytes_succ, Nat.add_assoc, ih (d + 1)]
    congr 1
    omega

end Parts

/-! ## The two decoders in step -/

section Simulation

variable {src : Mem} {srcSize : ℕ}

/-- The plain decoder has read as much and holds the text in front of `op`. -/
def InStep (src : Mem) (srcSize : ℕ) (st : DState) (ps : PlainState) : Prop :=
  st.ip < srcSize ∧ ps = ⟨(bytes src srcSize).drop st.ip, bytes st.dst st.op⟩

theorem readLE16_eq (src : Mem) (q : ℕ) :
    readLE16 src q = (src q).toNat + 256 * (src (q + 1)).toNat := by
  simp [readLE16, read16, leValue]

theorem plainStep_last {st : DState} {lit q : ℕ} (hip : st.ip < srcSize)
    (hlen : LenField src ((src st.ip).toNat / 16) (st.ip + 1) lit q) (hend : q + lit = srcSize) :
    plainStep ⟨(bytes src srcSize).drop st.ip, bytes st.dst st.op⟩ =
      .done (some (bytes (memcpy src st.dst st.op q lit) (st.op + lit))) := by
  have hdrop : ((bytes src srcSize).drop q).drop lit = [] := by
    rw [List.drop_drop, hend]
    exact List.drop_of_length_le (by rw [bytes_length])
  rw [plainStep]
  simp only [drop_bytes hip, plainLength_of hlen (show q ≤ srcSize by omega)]
  rw [if_neg (by simp; omega), hdrop, bytes_append_take (by omega)]

theorem plainStep_seq {st : DState} {lit q off mc i' : ℕ} (hip : st.ip < srcSize)
    (hs : SeqBytes src st.ip st.op lit q off mc i') (hend : i' < srcSize) :
    plainStep ⟨(bytes src srcSize).drop st.ip, bytes st.dst st.op⟩ =
      .next ⟨(bytes src srcSize).drop i',
        bytes (extend (memcpy src st.dst st.op q lit) (st.op + lit) off)
          (st.op + lit + (mc + 4))⟩ := by
  have hm := hs.matchLength.le
  have hdrop : ((bytes src srcSize).drop q).drop lit =
      src (q + lit) :: src (q + lit + 1) :: (bytes src srcSize).drop (q + lit + 2) := by
    rw [List.drop_drop, drop_bytes (by omega), drop_bytes (by omega)]
  have hoff : (src (q + lit)).toNat + 256 * (src (q + lit + 1)).toNat = off :=
    (readLE16_eq src (q + lit)).symm.trans hs.offset
  have htext : bytes (memcpy src st.dst st.op q lit) (st.op + lit) =
      bytes (extend (memcpy src st.dst st.op q lit) (st.op + lit) off) (st.op + lit + 0) :=
    bytes_congr fun k hk => (extend_below _ hk).symm
  rw [plainStep]
  simp only [drop_bytes hip, plainLength_of hs.litLength (show q ≤ srcSize by omega)]
  rw [if_neg (by simp; omega), hdrop, bytes_append_take (by omega)]
  simp only [hoff, plainLength_of hs.matchLength hend.le, bytes_length,
    if_neg (show ¬ st.op + lit < off by have := hs.off_le; omega)]
  rw [htext, plainMatch_bytes hs.off_le, Nat.add_zero]

/-- Results that are not errors come with the text. -/
theorem decompressStep_sim (outputSize : ℕ) {st : DState} {ps : PlainState} (h : InStep src srcSize st ps) :
    SimStep (InStep src srcSize) (fun r => 0 ≤ r.ret)
      (fun r out => out = some (bytes r.dst r.ret.toNat))
      (decompressStep src srcSize outputSize st) (plainStep ps) := by
  obtain ⟨hip, rfl⟩ := h
  have hout := decompressStep_outcome src outputSize hip
  refine ⟨fun st' he => ?_, fun r he hret => ?_⟩
  · rw [he] at hout
    cases hout with
    | seq hs hend hroom hmv =>
      refine ⟨_, plainStep_seq hip hs hend, by rw [hmv.ip]; exact hend, ?_⟩
      rw [hmv.ip, hmv.op, bytes_congr hmv.text]
  · rw [he] at hout
    cases hout with
    | error hf =>
      have hneg := hf.ret
      omega
    | last hlen hend hroom hret' htext hin =>
      refine ⟨_, plainStep_last hip hlen hend, ?_⟩
      dsimp only
      rw [hret', Int.toNat_natCast, bytes_congr htext]

end Simulation

/-- **The decoder agrees with the plain one** on every input it accepts. -/
theorem decompressSafe_plain {src dst : Mem} {srcSize outputSize : ℕ} {r : DResult}
    (h : decompressSafe src dst srcSize outputSize = some r) (hret : 0 ≤ r.ret) :
    plainDecode (bytes src srcSize) = some (bytes r.dst r.ret.toNat) := by
  rw [decompressSafe] at h
  by_cases h0 : outputSize = 0
  · rw [if_pos h0] at h
    obtain rfl := Option.some.inj h
    dsimp only at hret ⊢
    split at hret
    · next hone =>
      rw [if_pos hone, hone.1]
      simp [plainDecode, run, plainStep, plainLength, bytes, hone.2]
    · omega
  · rw [if_neg h0] at h
    by_cases hn : srcSize = 0
    · rw [if_pos hn] at h
      obtain rfl := Option.some.inj h
      exact absurd hret (show ¬ 0 ≤ (-1 : ℤ) by decide)
    · rw [if_neg hn] at h
      obtain ⟨out, hrun, rfl⟩ := run_sim (fun st ps => decompressStep_sim outputSize) _ _
        ⟨bytes src srcSize, []⟩ _ ⟨Nat.pos_of_ne_zero hn, rfl⟩ h hret
      rw [plainDecode, bytes_length, hrun]
      rfl

/-- **Agreement with the plain decoder.**  When a decompression call returns `0`, the first `*dlen`
bytes of `dst` are what the plain decoder makes of the input. -/
theorem lz4_decompress_plain (ctx : Lz4UpgradeCtx) (src dst : Mem) (slen dlen : ℕ) :
    ∃ r, lz4UpgradeDecompress ctx src slen dst dlen = some r ∧
      (r.code = 0 → plainDecode (bytes src slen) = some (bytes r.dst r.dlen)) := by
  rw [lz4UpgradeDecompress]
  by_cases hbig : INT_MAX < slen ∨ INT_MAX < dlen
  · rw [if_pos hbig]
    exact ⟨_, rfl, fun h => absurd h (show -E2BIG ≠ 0 by decide)⟩
  · rw [if_neg hbig]
    obtain ⟨r, hr, _⟩ := decompressSafe_inside src dst slen dlen
    rw [hr]
    simp only [Option.bind_eq_bind, Option.bind_some]
    by_cases hneg : r.ret < 0
    · rw [if_pos hneg]
      exact ⟨_, rfl, fun h => absurd h (show -EINVAL ≠ 0 by decide)⟩
    · rw [if_neg hneg]
      exact ⟨_, rfl, fun _ => decompressSafe_plain hr (by omega)⟩

/-- A literal `7 8`, a match of 6 bytes two back, five literals: twelve bytes. -/
theorem lz4_decompress_plain_example :
    let src : Mem := fun i => [0x22, 7, 8, 2, 0, 0x50, 1, 2, 3, 4, 5].getD i 0
    ∃ r, lz4UpgradeDecompress ⟨initStream⟩ src 11 (fun _ => 0) 32 = some r ∧ r.code = 0 ∧
      plainDecode (bytes src 11) = some (bytes r.dst r.dlen) := by
  intro src
  obtain ⟨r, hr, hplain⟩ := lz4_decompress_plain ⟨initStream⟩ src (fun _ => 0) 11 32
  have hcode : (lz4UpgradeDecompress ⟨initStream⟩ src 11 (fun _ => 0) 32).map (·.code) = some 0 := by
    decide +kernel
  rw [hr, Option.map_some, Option.some_inj] at hcode
  exact ⟨r, hr, hcode, hplain hcode⟩

end ZramUpgrade.Lz4
