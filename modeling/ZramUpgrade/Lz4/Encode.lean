import ZramUpgrade.Lz4.Block
import ZramUpgrade.Lz4.Compress

/-!
# Lz4.Encode — the compressor emits a block

Each writer of `Lz4.Compress` leaves the bytes before its start alone and puts down one field of the
format (`writeRunLength_spec`, `writeMatchLength_spec`).  `EncodeInv` is the invariant of the match
finder over its program points: what is written is `Parsed`, the pending match is real, and every
table entry is an index before the position to look up next.  `encodeStep_good` keeps it and
decreases `encodeMeasure`, so a call ends, with failure or with a block of the whole input
(`encode_spec`).
-/

namespace ZramUpgrade.Lz4

open Lib

/-! ## Writers -/

section Writers

variable {dst : Mem} {token op len : ℕ}

theorem writeLength_spec (dst : Mem) (op len : ℕ) :
    LenBytes (writeLength dst op len).1 op len (writeLength dst op len).2 ∧
      Agree (writeLength dst op len).1 dst op := by
  induction hk : len using Nat.strong_induction_on generalizing dst op len with
  | _ k ih =>
    subst hk
    rw [writeLength]
    by_cases h : 255 ≤ len
    · rw [if_pos h]
      obtain ⟨v, rfl⟩ : ∃ v, len = v + 255 := ⟨len - 255, by omega⟩
      obtain ⟨hb, hA⟩ := ih v (by omega) (store dst op 255) (op + 1) v rfl
      rw [Nat.add_sub_cancel]
      refine ⟨hb.cons ?_, (hA.mono (by omega)).trans (agree_store dst 255 le_rfl)⟩
      rw [hA op (by omega), store_self]
    · rw [if_neg h]
      have hdiv : len / 255 = 0 := Nat.div_eq_of_lt (by omega)
      refine ⟨⟨by rw [hdiv], fun k hk => by omega, ?_⟩, agree_store dst _ le_rfl⟩
      simp only [hdiv, Nat.add_zero, store_self, UInt8.toNat_ofNat']
      omega

/-- A literal run's token and length bytes. -/
theorem writeRunLength_spec (dst : Mem) (token lit : ℕ) :
    RunAt (writeRunLength dst token (token + 1) lit).1 token lit
        (writeRunLength dst token (token + 1) lit).2 ∧
      Agree (writeRunLength dst token (token + 1) lit).1 dst token := by
  rw [writeRunLength]
  by_cases h : 15 ≤ lit
  · rw [if_pos h]
    obtain ⟨hb, hA⟩ := writeLength_spec (store dst token (UInt8.ofNat (15 * 16))) (token + 1)
      (lit - 15)
    have ht := hA token (by omega)
    rw [store_self] at ht
    refine ⟨⟨?_, ?_⟩, (hA.mono (by omega)).trans (agree_store dst _ le_rfl)⟩
    · rw [ht]
      exact LenField.of_le h hb
    · rw [ht]
      rfl
  · rw [if_neg h]
    have ht : (UInt8.ofNat (lit * 16)).toNat = lit * 16 := by
      rw [UInt8.toNat_ofNat']
      omega
    refine ⟨⟨?_, ?_⟩, agree_store dst _ le_rfl⟩
    · simp only [store_self, ht, Nat.mul_div_cancel lit (show 0 < 16 by decide)]
      exact LenField.of_lt (by omega)
    · simp only [store_self, ht]
      omega

/-- The fill loop leaves `255` in every byte up to 4 past the new `op`. -/
theorem writeFills_spec (dst : Mem) (op mc : ℕ) (hd : ∀ k < 4, dst (op + k) = 255) :
    (writeFills dst op mc).2 = (op + 4 * (mc / 1020), mc % 1020) ∧
      (∀ k < 4 * (mc / 1020) + 4, (writeFills dst op mc).1 (op + k) = 255) ∧
      Agree (writeFills dst op mc).1 dst op := by
  induction hk : mc using Nat.strong_induction_on generalizing dst op mc with
  | _ k ih =>
    subst hk
    rw [writeFills]
    by_cases h : 4 * 255 ≤ mc
    · rw [if_pos h]
      have hdiv : mc / 1020 = (mc - 1020) / 1020 + 1 := by omega
      obtain ⟨he, hf, hA⟩ := ih (mc - 4 * 255) (by omega) (write32 dst (op + 4) 0xFFFFFFFF) (op + 4)
        _ (fun k hk => by
          rw [write32, leStore_in _ (by omega) (by omega), Nat.add_sub_cancel_left]
          interval_cases k <;> rfl) rfl
      have hA' : Agree (writeFills (write32 dst (op + 4) 0xFFFFFFFF) (op + 4) (mc - 4 * 255)).1 dst
          (op + 4) := hA.trans (agree_leStore dst _ 4 le_rfl)
      refine ⟨?_, fun k hk => ?_, hA'.mono (by omega)⟩
      · rw [he]
        refine Prod.ext ?_ ?_
        · show op + 4 + 4 * ((mc - 4 * 255) / 1020) = op + 4 * (mc / 1020)
          omega
        · show (mc - 4 * 255) % 1020 = mc % 1020
          omega
      · by_cases hk4 : k < 4
        · rw [hA' _ (by omega), hd k hk4]
        · have := hf (k - 4) (by omega)
          rwa [show op + 4 + (k - 4) = op + k by omega] at this
    · rw [if_neg h]
      have hdiv : mc / 1020 = 0 := Nat.div_eq_of_lt (by omega)
      refine ⟨by simp only [hdiv, Nat.mul_zero, Nat.add_zero, Nat.mod_eq_of_lt (by omega : mc < 1020)],
        fun k hk => hd k (by omega), Agree.refl _ _⟩

/-- The match length bytes from `op` on, and the token's low nibble over an untouched high one. -/
theorem writeMatchLength_spec (dst : Mem) (token op mc : ℕ) (ht : token < op)
    (hlow : (dst token).toNat % 16 = 0) :
    let r := writeMatchLength dst token op mc
    LenField r.1 ((r.1 token).toNat % 16) op mc r.2 ∧
      (r.1 token).toNat / 16 = (dst token).toNat / 16 ∧ ∀ j < op, j ≠ token → r.1 j = dst j := by
  have hbyte := (dst token).toNat_lt
  have hadd : ∀ n < 16, (dst token + UInt8.ofNat n).toNat = (dst token).toNat + n := by
    intro n hn
    rw [UInt8.toNat_add, UInt8.toNat_ofNat']
    omega
  simp only [writeMatchLength, ML_MASK]
  by_cases h : 15 ≤ mc
  · simp only [if_pos h]
    set d0 := store dst token (dst token + UInt8.ofNat 15) with hd0
    obtain ⟨he, hf, hA⟩ := writeFills_spec (write32 d0 op 0xFFFFFFFF) op (mc - 15) (fun k hk => by
      rw [write32, leStore_in _ (by omega) (by omega), Nat.add_sub_cancel_left]
      interval_cases k <;> rfl)
    set r := writeFills (write32 d0 op 0xFFFFFFFF) op (mc - 15) with hr
    have he1 : r.2.1 = op + 4 * ((mc - 15) / 1020) := by rw [he]
    have he2 : r.2.2 = (mc - 15) % 1020 := by rw [he]
    have hA' : Agree r.1 d0 op := hA.trans (agree_leStore d0 _ 4 le_rfl)
    simp only [he1, he2]
    set e := op + 4 * ((mc - 15) / 1020) + (mc - 15) % 1020 / 255 with hedef
    have hdiv : op + (mc - 15) / 255 = e := by omega
    have htok : (store r.1 e (UInt8.ofNat ((mc - 15) % 1020 % 255))) token =
        dst token + UInt8.ofNat 15 := by
      rw [store_ne _ _ (by omega), hA' token ht, hd0, store_self]
    refine ⟨?_, ?_, fun j hj hjt => ?_⟩
    · have hn : ((dst token).toNat + 15) % 16 = 15 := by omega
      rw [htok, hadd 15 (by decide), hn]
      refine LenField.of_le h ⟨by rw [hdiv], fun k hk => ?_, ?_⟩
      · rw [store_ne _ _ (by omega)]
        exact hf k (by omega)
      · rw [hdiv, store_self, UInt8.toNat_ofNat']
        omega
    · rw [htok, hadd 15 (by decide)]
      omega
    · rw [store_ne _ _ (by omega), hA' j hj, hd0, store_ne _ _ hjt]
  · simp only [if_neg h, store_self]
    refine ⟨?_, ?_, fun j _ hjt => store_ne _ _ hjt⟩
    · rw [hadd mc (by omega), show ((dst token).toNat + mc) % 16 = mc by omega]
      exact LenField.of_lt (by omega)
    · rw [hadd mc (by omega)]
      omega

end Writers

/-! ## The match finder's invariant -/

/-- What the driver's calls guarantee: old entries only behind `dictSmall`, and no index that an
entry of the table could not hold. -/
structure Call.WF (c : Call) : Prop where
  tableType : c.tableType ≠ .clearedTable
  index : c.startIndex + c.inputSize ≤ indexLimit c.tableType + 11
  stale : c.startIndex = 0 ∨ (c.dictIssue = .dictSmall ∧ c.prefixIdxLimit = c.startIndex)
  acceleration : 1 ≤ c.acceleration

section Invariant

variable (c : Call)

/-- Every entry of the table is an index before position `q`. -/
def IndexBelow (t : HashTable) (q : ℕ) : Prop :=
  ∀ h, getIndexOnHash h t c.tableType < c.startIndex + q

/-- `m` is a match for `ip`: in reach, and `n` bytes are equal. -/
structure MatchAt (ip m n : ℕ) : Prop where
  lt : m < ip
  reach : ip ≤ m + LZ4_DISTANCE_MAX
  eq : ∀ k < n, c.source (m + k) = c.source (ip + k)

/-- The literals from `a` to `ip` are written between `token` and `op`. -/
def Written (b : Mem) (token a ip op : ℕ) : Prop :=
  ∃ p, RunAt b token (ip - a) p ∧ p + (ip - a) = op ∧ ∀ k < ip - a, b (p + k) = c.source (a + k)

/-- At `_next_match`.  The match was found at `found`, with 4 equal bytes there; `ip` may have been
moved back from it, but the table has the entry of `found`. -/
structure NextMatchInv (st : EState) (m token : ℕ) : Prop where
  parsed : Parsed st.dst c.source c.inputSize token st.anchor
  written : Written c st.dst token st.anchor st.ip st.op
  anchor_le : st.anchor ≤ st.ip
  found : ∃ f, st.ip ≤ f ∧ f + 12 ≤ c.inputSize ∧ MatchAt c st.ip m (f + 4 - st.ip) ∧
    IndexBelow c st.hashTable (f + 1)

def EncodeInv (st : EState) : Prop :=
  match st.point with
  | .search f step nb _ =>
    Parsed st.dst c.source c.inputSize st.op st.anchor ∧ st.anchor < f ∧ f + 11 ≤ c.inputSize ∧
      1 ≤ step ∧ 64 ≤ nb ∧ IndexBelow c st.hashTable f
  | .nextMatch m token => NextMatchInv c st m token
  | .lastLiterals =>
    Parsed st.dst c.source c.inputSize st.op st.anchor ∧ st.anchor ≤ c.inputSize ∧
      IndexBelow c st.hashTable c.inputSize

/-- Sequences move `anchor`, rounds of the search move `forwardIp`. -/
def encodeMeasure (st : EState) : ℕ :=
  match st.point with
  | .search f _ _ _ => (c.inputSize - st.anchor) * (c.inputSize + 2) + (c.inputSize + 1 - f)
  | .nextMatch _ _ => (c.inputSize - st.anchor) * (c.inputSize + 2)
  | .lastLiterals => 0

/-- Failure or a block of the input; either way the table holds only indices of this call. -/
structure EncodePost (r : EResult) : Prop where
  table : IndexBelow c r.hashTable c.inputSize
  block : r.ret ≠ 0 → Rest r.dst c.source c.inputSize r.ret 0 0
  size : 255 * r.ret ≤ 256 * c.inputSize + 495
  fits : c.outputDirective = .limitedOutput → r.ret ≤ c.maxOutputSize

end Invariant

section Invariant

variable {c : Call} {t : HashTable} {q : ℕ}

theorem IndexBelow.mono (h : IndexBelow c t q) {q' : ℕ} (hq : q ≤ q') : IndexBelow c t q' :=
  fun i => (h i).trans_le (by omega)

/-- Entering a position keeps the table below anything past it. -/
theorem IndexBelow.put (hc : c.WF) (h : IndexBelow c t q) (pos hash : ℕ) (hpos : pos < q)
    (hN : pos + 12 ≤ c.inputSize) :
    IndexBelow c (putIndexOnHash (c.startIndex + pos) hash t c.tableType) q := by
  intro i
  have := hc.index
  rw [getIndexOnHash_put hc.tableType (by omega)]
  split
  · omega
  · exact h i

/-- An entry that passes the test of validity is an index of this call. -/
theorem startIndex_le (hc : c.WF) {matchIndex : ℕ}
    (hvalid : ¬ (c.dictIssue = .dictSmall ∧ matchIndex < c.prefixIdxLimit)) :
    c.startIndex ≤ matchIndex := by
  rcases hc.stale with h0 | ⟨hd, hp⟩
  · omega
  · by_contra hlt
    exact hvalid ⟨hd, by omega⟩

/-- An entry that passes the tests of validity and distance is a position in reach. -/
theorem matchOf_reach (hc : c.WF) (h : IndexBelow c t q) (hash : ℕ) (hq : q + 12 ≤ c.inputSize)
    (hvalid : ¬ (c.dictIssue = .dictSmall ∧ getIndexOnHash hash t c.tableType < c.prefixIdxLimit))
    (hnear : ¬ (c.tableType ≠ .byU16 ∧
      getIndexOnHash hash t c.tableType + LZ4_DISTANCE_MAX < c.startIndex + q)) :
    c.matchOf (getIndexOnHash hash t c.tableType) < q ∧
      q ≤ c.matchOf (getIndexOnHash hash t c.tableType) + LZ4_DISTANCE_MAX := by
  have hlt := h hash
  have hge := startIndex_le hc hvalid
  rw [Call.matchOf]
  simp only [LZ4_DISTANCE_MAX] at hnear ⊢
  refine ⟨by omega, ?_⟩
  by_cases h16 : c.tableType = .byU16
  · have := hc.index
    rw [h16, indexLimit] at this
    omega
  · by_contra hfar
    exact hnear ⟨h16, by omega⟩

/-- The same for the tests as "Test next position" makes them. -/
theorem matchOf_reach_next (hc : c.WF) (h : IndexBelow c t q) (hash : ℕ)
    (hq : q + 12 ≤ c.inputSize)
    (htests : (c.dictIssue = .dictSmall → c.prefixIdxLimit ≤ getIndexOnHash hash t c.tableType) ∧
      (c.tableType = .byU16 ∨
        c.startIndex + q ≤ getIndexOnHash hash t c.tableType + LZ4_DISTANCE_MAX)) :
    c.startIndex ≤ getIndexOnHash hash t c.tableType ∧
      c.matchOf (getIndexOnHash hash t c.tableType) < q ∧
      q ≤ c.matchOf (getIndexOnHash hash t c.tableType) + LZ4_DISTANCE_MAX := by
  obtain ⟨hvalid, hnear⟩ := htests
  have hv : ¬ (c.dictIssue = .dictSmall ∧ getIndexOnHash hash t c.tableType < c.prefixIdxLimit) :=
    fun hv => absurd (hvalid hv.1) (by omega)
  refine ⟨startIndex_le hc hv, matchOf_reach hc h hash hq hv fun hfar => ?_⟩
  rcases hnear with h16 | hn
  · exact hfar.1 h16
  · omega

/-- "Catch up" moves a match and its position back together, not past `anchor`. -/
theorem catchUpLoop_spec {anchor ip m : ℕ} (ha : anchor < ip) (hm : 0 < m)
    (he : c.source (ip - 1) = c.source (m - 1)) :
    ∃ j, (catchUpLoop c anchor ip m).1 + j = ip ∧ (catchUpLoop c anchor ip m).2 + j = m ∧
      anchor ≤ (catchUpLoop c anchor ip m).1 ∧
      ∀ k < j, c.source ((catchUpLoop c anchor ip m).2 + k) =
        c.source ((catchUpLoop c anchor ip m).1 + k) := by
  induction m generalizing ip with
  | zero => omega
  | succ m ih =>
    rw [catchUpLoop]
    split
    · next h =>
      obtain ⟨j, h1, h2, h3, h4⟩ := ih h.1 h.2.1 h.2.2
      refine ⟨j + 1, by omega, by omega, h3, fun k hk => ?_⟩
      by_cases hkj : k < j
      · exact h4 k hkj
      · obtain rfl : k = j := by omega
        rw [h1, h2]
        simpa using he.symm
    · refine ⟨1, by simp only; omega, rfl, by simp only; omega, fun k hk => ?_⟩
      obtain rfl : k = 0 := by omega
      simpa using he.symm

theorem catchUp_spec {anchor ip m n : ℕ} (ha : anchor < ip) (h : MatchAt c ip m n) :
    ∃ j, (catchUp c anchor ip m).1 + j = ip ∧ anchor ≤ (catchUp c anchor ip m).1 ∧
      MatchAt c (catchUp c anchor ip m).1 (catchUp c anchor ip m).2 (j + n) := by
  obtain ⟨hlt, hreach, heq⟩ := h
  rw [catchUp]
  split
  · next hg =>
    obtain ⟨j, h1, h2, h3, h4⟩ := catchUpLoop_spec ha hg.1 hg.2
    refine ⟨j, h1, h3, by omega, by omega, eqBytes_append (fun k hk => h4 k hk) ?_⟩
    rw [h1, h2]
    exact heq
  · exact ⟨0, rfl, ha.le, hlt, hreach, by simpa using heq⟩

/-- The measure drops by a whole row when `anchor` moves. -/
theorem row_lt {N a a' r : ℕ} (ha : a < a') (ha' : a' ≤ N) (hr : r < N + 2) :
    (N - a') * (N + 2) + r < (N - a) * (N + 2) := by
  have := Nat.mul_le_mul_right (N + 2) (show N - a' + 1 ≤ N - a by omega)
  rw [Nat.succ_mul] at this
  omega

/-! ## One step -/

/-- A good step of the match finder. -/
abbrev GoodEncode (c : Call) (st : EState) (r : Step EState EResult) : Prop :=
  (∃ st', r = .next st' ∧ EncodeInv c st' ∧ encodeMeasure c st' < encodeMeasure c st) ∨
    ∃ e, r = .done e ∧ EncodePost c e

theorem fail_post {st : EState} (h : IndexBelow c st.hashTable c.inputSize) :
    ∃ e, st.fail = .done e ∧ EncodePost c e :=
  ⟨_, rfl, ⟨h, fun h0 => absurd rfl h0, Nat.zero_le _, fun _ => Nat.zero_le _⟩⟩

/-- "Encode Literals" puts down the literals up to the match, moved back by "Catch up". -/
theorem encodeLiterals_good {st st₀ : EState} {m : ℕ}
    (hP : Parsed st.dst c.source c.inputSize st.op st.anchor) (ha : st.anchor < st.ip)
    (hN : st.ip + 12 ≤ c.inputSize) (hm : MatchAt c st.ip m 4)
    (ht : IndexBelow c st.hashTable (st.ip + 1))
    (hμ : (c.inputSize - st.anchor) * (c.inputSize + 2) < encodeMeasure c st₀) :
    GoodEncode c st₀ (encodeLiterals c st m) := by
  obtain ⟨j, hj, haj, hmj⟩ := catchUp_spec ha hm
  set ip := (catchUp c st.anchor st.ip m).1 with hip
  set mp := (catchUp c st.anchor st.ip m).2 with hmp
  have hpair : catchUp c st.anchor st.ip m = (ip, mp) := rfl
  simp only [encodeLiterals, hpair]
  split
  · exact .inr (fail_post (ht.mono (by omega)))
  · obtain ⟨hR, hA⟩ := writeRunLength_spec st.dst st.op (ip - st.anchor)
    set w := writeRunLength st.dst st.op (st.op + 1) (ip - st.anchor) with hw
    have hop := hR.lt
    -- the literals as a stream behind what is written
    let p : Mem := fun i => if i < w.2 then w.1 i else c.source (st.anchor + (i - w.2))
    have hpw : Agree w.1 p w.2 := fun i hi => by simp only [p, if_pos hi]
    have hcopy : Agree (wildCopy8 (fun _ => c.source) w.1 w.2 st.anchor (w.2 + (ip - st.anchor))) p
        (w.2 + (ip - st.anchor)) := by
      refine Agree.wildCopy8_ext hpw fun k _ => ?_
      simp only [p, if_neg (show ¬ w.2 + k < w.2 by omega), Nat.add_sub_cancel_left]
    have hlow : Agree (wildCopy8 (fun _ => c.source) w.1 w.2 st.anchor (w.2 + (ip - st.anchor)))
        w.1 w.2 := wildCopy8_agree _ _ _ _ _
    have hlits : ∀ k < ip - st.anchor,
        wildCopy8 (fun _ => c.source) w.1 w.2 st.anchor (w.2 + (ip - st.anchor)) (w.2 + k) =
          c.source (st.anchor + k) := fun k hk => by
      rw [hcopy _ (by omega)]
      simp only [p, if_neg (show ¬ w.2 + k < w.2 by omega), Nat.add_sub_cancel_left]
    have hfound : MatchAt c ip mp (st.ip + 4 - ip) := by
      rwa [show st.ip + 4 - ip = j + 4 by omega]
    have hple : ip ≤ st.ip := by omega
    exact .inl ⟨_, rfl, ⟨hP.congr ((hlow.mono (by omega)).trans hA), ⟨w.2, hR.congr hlow, rfl, hlits⟩,
      haj, st.ip, hple, hN, hfound, ht⟩, hμ⟩

/-- One round of the search. -/
theorem searchStep_good (hc : c.WF) {st : EState} {f step nb fh : ℕ}
    (hpt : st.point = .search f step nb fh) (h : EncodeInv c st) :
    GoodEncode c st (searchStep c st f step nb fh) := by
  simp only [EncodeInv, hpt] at h
  obtain ⟨hP, ha, hf, hstep, hnb, ht⟩ := h
  have hμ : encodeMeasure c st = (c.inputSize - st.anchor) * (c.inputSize + 2) +
      (c.inputSize + 1 - f) := by rw [encodeMeasure, hpt]
  simp only [searchStep, MFLIMIT, LZ4_skipTrigger]
  split
  · refine .inl ⟨_, rfl, ⟨hP, by dsimp only; omega, ht.mono (by omega)⟩, ?_⟩
    rw [hμ]
    exact Nat.lt_add_left _ (by omega : 0 < c.inputSize + 1 - f)
  · next hgo =>
    have hput := (ht.mono (Nat.le_succ f)).put hc f fh (Nat.lt_succ_self f) (by omega)
    have hnb' : 1 ≤ nb >>> 6 := by
      rw [Nat.shiftRight_eq_div_pow]
      omega
    -- "continue": the next round looks at `f + step`
    have next : ∀ ok, GoodEncode c st (.next { st with
        point := .search (f + step) (nb >>> 6) (nb + 1) (c.hashAt (f + step))
        ip := f
        hashTable := putIndexOnHash (c.startIndex + f) fh st.hashTable c.tableType
        ok := ok }) := fun ok =>
      .inl ⟨_, rfl, ⟨hP, by dsimp only; omega, by omega, hnb', by omega, hput.mono (by omega)⟩, by
        rw [hμ]
        exact Nat.add_lt_add_left (by omega) _⟩
    split
    · exact next _
    · next hvalid =>
      split
      · exact next _
      · next hnear =>
        split
        · next he =>
          obtain ⟨hlt, hreach⟩ := matchOf_reach hc ht _ (by omega) hvalid hnear
          refine encodeLiterals_good hP ha (by simp only; omega)
            ⟨hlt, hreach, read32_eq_iff.mp he⟩ hput ?_
          rw [hμ]
          exact Nat.lt_add_of_pos_right (by omega)
        · exact next _

/-- "Fill table" and "Test next position" after a whole sequence. -/
theorem afterMatch_good (hc : c.WF) {st st₀ : EState}
    (hP : Parsed st.dst c.source c.inputSize st.op st.ip) (hN : st.ip + 5 ≤ c.inputSize)
    (h4 : 4 ≤ st.ip) (ht : IndexBelow c st.hashTable st.ip)
    (hμ : (c.inputSize - st.ip) * (c.inputSize + 2) + (c.inputSize + 1) < encodeMeasure c st₀) :
    GoodEncode c st₀ (afterMatch c st) := by
  simp only [afterMatch]
  split
  · exact .inl ⟨_, rfl, ⟨hP, by dsimp only; omega, ht.mono (by omega)⟩, Nat.zero_lt_of_lt hμ⟩
  · next hgo =>
    have h12 : st.ip + 12 ≤ c.inputSize := by
      simp only [Call.pastMflimit, MFLIMIT] at hgo
      omega
    have ht2 := ht.put hc (st.ip - 2) (c.hashAt (st.ip - 2)) (by omega) (by omega)
    set table := putIndexOnHash (c.startIndex + (st.ip - 2)) (c.hashAt (st.ip - 2)) st.hashTable
      c.tableType with htable
    have ht3 := (ht2.mono (Nat.le_succ st.ip)).put hc st.ip (c.hashAt st.ip)
      (Nat.lt_succ_self st.ip) h12
    split
    · next h =>
      -- a match right here: an empty literal run
      obtain ⟨htests, he⟩ := h
      obtain ⟨-, hlt, hreach⟩ := matchOf_reach_next hc ht2 (c.hashAt st.ip) h12 htests
      have hrun : RunAt (store st.dst st.op 0) st.op 0 (st.op + 1) := by
        refine ⟨?_, by rw [store_self]; rfl⟩
        rw [store_self]
        exact LenField.of_lt (by decide)
      have hfound : MatchAt c st.ip (c.matchOf (getIndexOnHash (c.hashAt st.ip) table c.tableType))
          (st.ip + 4 - st.ip) := by
        rw [Nat.add_sub_cancel_left]
        exact ⟨hlt, hreach, read32_eq_iff.mp he⟩
      refine .inl ⟨_, rfl, ⟨hP.congr (agree_store _ _ le_rfl), ⟨st.op + 1, ?_, ?_, fun k hk => ?_⟩,
        le_rfl, st.ip, le_rfl, h12, hfound, ht3⟩, lt_of_le_of_lt (Nat.le_add_right _ _) hμ⟩
      · simpa only [Nat.sub_self] using hrun
      · simp only [Nat.sub_self, Nat.add_zero]
      · simp only [Nat.sub_self] at hk
        omega
    · have hacc := hc.acceleration
      refine .inl ⟨_, rfl, ⟨hP, by dsimp only; omega, by omega, le_rfl, ?_, ht3⟩, ?_⟩
      · rw [LZ4_skipTrigger, Nat.shiftLeft_eq]
        omega
      · refine lt_of_le_of_lt (Nat.add_le_add_left ?_ _) hμ
        omega

/-- The bytes of a whole sequence: literals, offset and match length. -/
theorem writeMatch_seq {st : EState} {m token mc : ℕ} (h : NextMatchInv c st m token)
    (hmc : ∀ k < mc + 4, c.source (st.ip + k) = c.source (m + k)) :
    let r := writeMatchLength (writeLE16 st.dst st.op (st.ip - m)) token (st.op + 2) mc
    Agree r.1 st.dst token ∧ ∃ p, SeqAt r.1 c.source token st.anchor (st.ip - st.anchor) p
      (st.ip - m) mc r.2 := by
  obtain ⟨_, ⟨p, hR, hop, hlits⟩, hale, f, hf, _, ⟨hlt, hreach, _⟩, _⟩ := h
  have hp := hR.lt
  set off := st.ip - m with hoff
  have hoff16 : off < 256 ^ 2 := by
    simp only [LZ4_DISTANCE_MAX] at hreach
    omega
  set dst := writeLE16 st.dst st.op off with hdst
  have hA : Agree dst st.dst st.op := agree_leStore _ _ _ le_rfl
  have htok : dst token = st.dst token := hA token (by omega)
  obtain ⟨hlen, hhigh, hkeep⟩ := writeMatchLength_spec dst token (st.op + 2) mc (by omega)
    (by rw [htok, hR.low])
  set r := writeMatchLength dst token (st.op + 2) mc with hr
  have hold : ∀ j < st.op, j ≠ token → r.1 j = st.dst j := fun j hj hjt => by
    rw [hkeep j (by omega) hjt, hA j hj]
  refine ⟨fun j hj => hold j (by omega) (by omega), p, ?_, fun k hk => ?_, ?_, by omega, by omega, ?_,
    fun k hk => ?_⟩
  · rw [hhigh, htok]
    exact hR.litLength.congr fun k hk hkp => hold k (by omega) (by omega)
  · rw [hold _ (by omega) (by omega), hlits k hk]
  · have : readLE16 r.1 st.op = readLE16 dst st.op := leValue_congr fun k hk =>
      hkeep _ (by omega) (by omega)
    rw [hop, this, hdst, readLE16, read16, writeLE16, leValue_leStore, Nat.mod_eq_of_lt hoff16]
  · rw [hop]
    exact hlen
  · rw [Nat.add_sub_cancel' hale, hmc k hk]
    congr 1
    omega

/-- The count of the match: it stays 5 bytes from the end and passes every position in the table. -/
theorem NextMatchInv.counted {st : EState} {m token : ℕ} (h : NextMatchInv c st m token) :
    m < st.ip ∧ st.ip + 12 ≤ c.inputSize ∧
    ∃ mc, count c.source (st.ip + 4) (m + 4) (c.inputSize - 5) = mc ∧
      st.ip + (mc + 4) + 5 ≤ c.inputSize ∧ IndexBelow c st.hashTable (st.ip + (mc + 4)) ∧
      ∀ k < mc + 4, c.source (st.ip + k) = c.source (m + k) := by
  obtain ⟨-, -, -, f, hf, hfN, ⟨hlt, hreach, heq⟩, ht⟩ := h
  obtain ⟨hcN, hceq⟩ := count_spec (m := c.source) (st.ip + 4) (m + 4)
    (c.inputSize - 5) (by omega)
  have hfar : f + 4 ≤ st.ip + 4 + count c.source (st.ip + 4) (m + 4) (c.inputSize - 5) := by
    refine le_count (by omega) (by omega) fun k hk => ?_
    rw [Nat.add_assoc, Nat.add_assoc]
    exact heq (4 + k) (by omega)
  refine ⟨hlt, by omega, _, rfl, by omega, ht.mono (by omega), fun k hk => ?_⟩
  exact (eqBytes_append (n := 4) (fun k hk => heq k (by omega)) hceq k (by omega)).symm

/-- `_next_match`: the sequence is complete, and `ip` is past every position in the table. -/
theorem nextMatchStep_good (hc : c.WF) {st : EState} {m token : ℕ}
    (hpt : st.point = .nextMatch m token) (h : EncodeInv c st) :
    GoodEncode c st (nextMatchStep c st m token) := by
  simp only [EncodeInv, hpt] at h
  have hμ : encodeMeasure c st = (c.inputSize - st.anchor) * (c.inputSize + 2) := by
    rw [encodeMeasure, hpt]
  have hP := h.parsed
  have hale := h.anchor_le
  obtain ⟨-, h12, mc, hmc, hN, ht, hbytes⟩ := h.counted
  simp only [nextMatchStep, LASTLITERALS, MINMATCH, hmc]
  split
  · exact .inr (fail_post (ht.mono (by omega)))
  · obtain ⟨hA, p, hs⟩ := writeMatch_seq h hbytes
    have hip : st.anchor + (st.ip - st.anchor) + (mc + 4) = st.ip + (mc + 4) := by omega
    have hP' := (hP.congr hA).seq hs ⟨by omega, by omega⟩
    rw [hip] at hP'
    refine afterMatch_good hc hP' (by dsimp only; omega) (by dsimp only; omega) ht ?_
    rw [hμ]
    exact row_lt (by dsimp only; omega) (by dsimp only; omega) (by omega)

/-- `_last_literals` ends a block of the whole input. -/
theorem lastLiteralsStep_post {st : EState} (hpt : st.point = .lastLiterals) (h : EncodeInv c st) :
    ∃ e, lastLiteralsStep c st = .done e ∧ EncodePost c e := by
  simp only [EncodeInv, hpt] at h
  obtain ⟨hP, ha, ht⟩ := h
  simp only [lastLiteralsStep, RUN_MASK]
  set lastRun := c.inputSize - st.anchor with hrun
  split
  · exact fail_post ht
  · next hfit =>
    obtain ⟨hR, hA⟩ := writeRunLength_spec st.dst st.op lastRun
    set w := writeRunLength st.dst st.op (st.op + 1) lastRun with hw
    have hop := hR.lt
    have hsize := hR.litLength.size
    have hlow : Agree (memcpy c.source w.1 w.2 st.anchor lastRun) w.1 w.2 :=
      agree_memcpy _ _ _ _ le_rfl
    have hlast : LastAt (memcpy c.source w.1 w.2 st.anchor lastRun) c.source c.inputSize st.op
        st.anchor (w.2 + lastRun) := by
      refine ⟨⟨w.2, hR.congr hlow, rfl, fun k hk => ?_⟩, ha⟩
      rw [memcpy_in _ _ (by omega) (by omega), Nat.add_sub_cancel_left]
    have hP' := hP.congr ((hlow.mono (by omega)).trans hA)
    refine ⟨_, rfl, ht, fun _ => hP'.rest (.last hlast), ?_, fun hl => ?_⟩
    · have h1 := hlast.size
      have h2 := hP'.size
      show 255 * (w.2 + lastRun) ≤ _
      omega
    · by_contra hgt
      refine hfit ⟨hl, lt_of_lt_of_le (Nat.lt_of_not_le hgt) ?_⟩
      show w.2 + lastRun ≤ _
      omega

/-! ## A whole call -/

/-- **Every step is good.** -/
theorem encodeStep_good (hc : c.WF) (st : EState) (h : EncodeInv c st) :
    GoodStep (encodeStep c) (EncodeInv c) (encodeMeasure c) (EncodePost c) st := by
  rw [GoodStep, encodeStep]
  cases hpt : st.point with
  | search f step nb fh => exact searchStep_good hc hpt h
  | nextMatch m token => exact nextMatchStep_good hc hpt h
  | lastLiterals => exact .inr (lastLiteralsStep_post hpt h)

theorem encodeStart_inv (hc : c.WF) (ht : ∀ h, getIndexOnHash h t c.tableType ≤ c.startIndex)
    (h0 : 0 < c.inputSize) (dst : Mem) : EncodeInv c (encodeStart c t dst) := by
  simp only [encodeStart, LZ4_minLength, MFLIMIT]
  split
  · exact ⟨.start, Nat.zero_le _, fun h => (ht h).trans_lt (by omega)⟩
  · have hacc := hc.acceleration
    have ht1 : IndexBelow c t 1 := fun h => (ht h).trans_lt (by omega)
    refine ⟨.start, Nat.zero_lt_one, by omega, le_rfl, ?_, ?_⟩
    · rw [LZ4_skipTrigger, Nat.shiftLeft_eq]
      omega
    · exact ht1.put hc 0 _ (by omega) (by omega)

theorem encodeStart_measure (h0 : 0 < c.inputSize) (dst : Mem) :
    encodeMeasure c (encodeStart c t dst) < encodeFuel c := by
  have : (c.inputSize + 1) * (c.inputSize + 2) = c.inputSize * (c.inputSize + 2) + (c.inputSize + 2) :=
    Nat.succ_mul _ _
  simp only [encodeStart, encodeFuel]
  split
  · simp only [encodeMeasure]
    omega
  · simp only [encodeMeasure, Nat.sub_zero]
    omega

/-- **A call of the match finder** ends, from any table of entries not past its start, with failure
or a block. -/
theorem encode_spec (hc : c.WF) (ht : ∀ h, getIndexOnHash h t c.tableType ≤ c.startIndex)
    (h0 : 0 < c.inputSize) (dst : Mem) :
    ∃ r, run (encodeStep c) (encodeFuel c) (encodeStart c t dst) = some r ∧ EncodePost c r :=
  run_spec (encodeStep_good hc) _ _ (encodeStart_inv hc ht h0 dst) (encodeStart_measure h0 dst)

end Invariant

end ZramUpgrade.Lz4
