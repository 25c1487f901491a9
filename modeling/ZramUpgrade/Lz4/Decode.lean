import ZramUpgrade.Lz4.Block
import ZramUpgrade.Lz4.Decompress

/-!
# Lz4.Decode — the safe decoder decodes every block

The copies of `Lz4.Decompress` overshoot: they write past the end of a literal run or match, and
later ones overwrite that.  What each copy keeps is `Agree dst p op`: the bytes before `op` are
those of the plain text.  A match copy runs against the periodic extension of the text at `op`.
-/

namespace ZramUpgrade.Lz4

open Lib

/-! ## Lengths -/

section Length

variable {src : Mem} {ilimit ip v j : ℕ}

theorem readVariableLengthLoop_spec (h : LenBytes src ip v j) (hj : j ≤ ilimit) :
    ∀ acc, readVariableLengthLoop src ilimit ip acc = (some (acc + v), j) := by
  induction hk : v using Nat.strong_induction_on generalizing ip v with
  | _ k ih =>
    subst hk
    intro acc
    have hlt := h.lt
    rw [readVariableLengthLoop]
    by_cases hv : v < 255
    · have hr := h.rest
      have hl := h.last
      rw [Nat.div_eq_of_lt hv, Nat.add_zero, Nat.mod_eq_of_lt hv] at hr
      rw [Nat.div_eq_of_lt hv] at hl
      simp only [hr, if_neg (show ¬ ilimit < ip + 1 by omega), if_neg (show ¬ v = 255 by omega), hl,
        Nat.add_zero]
    · obtain ⟨v, rfl⟩ : ∃ w, v = w + 255 := ⟨v - 255, by omega⟩
      have hb : (src ip).toNat = 255 := by rw [h.head]; rfl
      have ht := h.tail
      have htl := ht.lt
      simp only [hb, if_neg (show ¬ ilimit < ip + 1 by omega), if_true]
      rw [ih v (by omega) ht rfl]
      congr 2
      omega

theorem readVariableLength_spec (h : LenBytes src ip v j) (hj : j ≤ ilimit) (chk : Bool) :
    readVariableLength src ip ilimit chk = (some v, j) := by
  have := h.lt
  rw [readVariableLength, if_neg (by omega), readVariableLengthLoop_spec h hj, Nat.zero_add]

/-- The literal length limit leaves the run itself room: it is at least `RUN_MASK` bytes long. -/
theorem readVariableLength_long (srcSize : ℕ) (h : LenBytes src ip v j) (hj : j + 15 ≤ srcSize) :
    readVariableLength src ip (srcSize - 15) true = (some v, j) :=
  readVariableLength_spec h (by omega) true

end Length

/-! ## Match copies -/

section Match

variable {dst p : Mem} {op off : ℕ}

theorem copyBytes_agree {s e : ℕ} (h : Agree dst p op) (hs : s < op)
    (hp : ∀ k, p (s + k) = p (op + k)) : Agree (copyBytes dst op s e) p (max op e) := by
  induction hk : e - op using Nat.strong_induction_on generalizing dst op s with
  | _ k ih =>
    rw [copyBytes]
    split
    · have hb : dst s = p op := (h s hs).trans (hp 0)
      refine (ih (e - (op + 1)) (by omega) (h.store hb) (by omega) (fun k => ?_) rfl).mono (by omega)
      rw [Nat.add_assoc, Nat.add_assoc]
      exact hp (1 + k)
    · exact h.mono (by omega)

/-- The distance that the tables leave between `op + 8` and the next source position: a multiple of
the offset, and at least 8. -/
theorem headDistance {off : ℕ} (h0 : 0 < off) (h8 : off < 8) : ∃ q, 8 ≤ q * off ∧
    q * off ≤ 8 + off ∧ ((inc32table off : ℕ) : ℤ) - dec64table off = 8 + (off : ℤ) - (q * off : ℕ) := by
  interval_cases off
  · exact ⟨8, by decide⟩
  · exact ⟨4, by decide⟩
  · exact ⟨3, by decide⟩
  · exact ⟨2, by decide⟩
  · exact ⟨2, by decide⟩
  · exact ⟨2, by decide⟩
  · exact ⟨2, by decide⟩

/-- The same for the 4 bytes at `op + 4`. -/
theorem incDistance {off : ℕ} (h0 : 0 < off) (h8 : off < 8) : ∃ q, 4 ≤ q * off ∧
    q * off ≤ 4 + off ∧ inc32table off + q * off = 4 + off := by
  interval_cases off
  · exact ⟨4, by decide⟩
  · exact ⟨2, by decide⟩
  · exact ⟨2, by decide⟩
  · exact ⟨2, by decide⟩
  · exact ⟨1, by decide⟩
  · exact ⟨1, by decide⟩
  · exact ⟨1, by decide⟩

/-- A source position a multiple of the offset behind `d` holds the extension's bytes at `d`. -/
theorem extend_shift {d s q : ℕ} (h0 : 0 < off) (hoff : off ≤ op) (hd : op ≤ d)
    (hs : s + q * off = d) (hlow : op - off ≤ s) (k : ℕ) :
    extend p op off (s + k) = extend p op off (d + k) := by
  rw [extend_period p (i := d + k) (q := q) h0 hoff (by omega) (by omega) (by omega)]
  congr 1
  omega

/-- The four single bytes of a match at an offset below 8, over the zeros of `LZ4_write32`. -/
theorem headBytes_agree {m : Mem} (hoff : off ≤ op) {k : ℕ} (hk : k < 4)
    (h : Agree m (extend p op off) (op + k)) (hw : off = 0 → m (op + k) = 0) :
    Agree (store m (op + k) (m (op - off + k))) (extend p op off) (op + k + 1) := by
  refine h.store ?_
  by_cases h0 : off = 0
  · subst h0
    rw [Nat.sub_zero, hw rfl, extend, if_neg (by omega), if_pos rfl]
  · rw [h _ (by omega)]
    exact extend_shift (q := 1) (by omega) hoff le_rfl (by omega) (by omega) k

/-- The first 8 bytes of a match, and a source at least 8 back that goes on with its bytes. -/
theorem copyMatchHead_agree (h : Agree dst p op) (hoff : off ≤ op) :
    Agree (copyMatchHead dst op off).1 (extend p op off) (op + 8) ∧
      (copyMatchHead dst op off).2 ≤ op ∧
      ∀ k, extend p op off ((copyMatchHead dst op off).2 + k) = extend p op off (op + 8 + k) := by
  have hE : Agree dst (extend p op off) op :=
    h.trans fun i hi => (extend_below p hi).symm
  by_cases h8 : off < 8
  · have hw : Agree (write32 dst op 0) (extend p op off) op :=
      (agree_leStore dst 0 4 le_rfl).trans hE
    have hz : ∀ k, k < 4 → write32 dst op 0 (op + k) = 0 := by
      intro k hk
      rw [write32, leStore_in _ (by omega) (by omega), Nat.zero_div]
      rfl
    have h4 := headBytes_agree hoff (k := 3) (by omega) (headBytes_agree hoff (k := 2) (by omega)
      (headBytes_agree hoff (k := 1) (by omega) (headBytes_agree hoff (k := 0) (by omega) hw
        fun _ => hz 0 (by omega)) fun h0 => ?_) fun h0 => ?_) fun h0 => ?_
    rotate_left
    · rw [store_ne _ _ (by omega)]
      exact hz 1 (by omega)
    · rw [store_ne _ _ (by omega), store_ne _ _ (by omega)]
      exact hz 2 (by omega)
    · rw [store_ne _ _ (by omega), store_ne _ _ (by omega), store_ne _ _ (by omega)]
      exact hz 3 (by omega)
    simp only [copyMatchHead, if_pos h8]
    by_cases h0 : off = 0
    · -- the source stays at `op`: zeros
      subst h0
      have hzero : ∀ i, op ≤ i → extend p op 0 i = 0 := by
        intro i hi
        rw [extend, if_neg (by omega), if_pos rfl]
      refine ⟨h4.memcpy_self _ 4 (by simp [inc32table]) fun k _ => ?_, ?_, fun k => ?_⟩
      · rw [hzero _ (by simp [inc32table]), hzero _ (by omega)]
      · simp [inc32table, dec64table]
      · rw [hzero _ (by simp [inc32table, dec64table]), hzero _ (by omega)]
    · have h0 : 0 < off := by omega
      obtain ⟨q, hq8, hq, hqe⟩ := headDistance h0 h8
      obtain ⟨r, hr4, hr, hre⟩ := incDistance h0 h8
      have h8' := h4.memcpy_self (op - off + inc32table off) 4 (by omega)
        (fun k _ => extend_shift (q := r) h0 hoff (by omega) (by omega) (by omega) k)
      have hsrc : (((op - off + inc32table off : ℕ) : ℤ) - dec64table off).toNat + q * off =
          op + 8 := by
        omega
      exact ⟨h8', by omega, fun k => extend_shift (q := q) h0 hoff (by omega) hsrc (by omega) k⟩
  · have h0 : 0 < off := by omega
    simp only [copyMatchHead, if_neg h8]
    refine ⟨hE.memcpy_self _ _ (by omega) fun k _ => ?_, by omega, fun k => ?_⟩
    · exact extend_shift (q := 1) h0 hoff le_rfl (by omega) (by omega) k
    · exact extend_shift (q := 1) h0 hoff (by omega) (by omega) (by omega) k

/-- The 18 bytes the shortcut copies for a match at least 8 back. -/
def shortcutCopies (dst : Mem) (op matchPos : ℕ) : Mem :=
  let dst := memcpy dst dst op matchPos 8
  let dst := memcpy dst dst (op + 8) (matchPos + 8) 8
  memcpy dst dst (op + 16) (matchPos + 16) 2

theorem shortcutCopies_agree (h : Agree dst p op) (h8 : 8 ≤ off) (hoff : off ≤ op) :
    Agree (shortcutCopies dst op (op - off)) (extend p op off) (op + 18) := by
  have hE : Agree dst (extend p op off) op :=
    h.trans fun i hi => (extend_below p hi).symm
  have hp : ∀ d k, extend p op off (op - off + d + k) = extend p op off (op + d + k) := fun d k =>
    extend_shift (q := 1) (by omega) hoff (by omega) (by omega) (by omega) k
  have h1 := hE.memcpy_self (op - off) 8 (by omega) fun k _ => hp 0 k
  have h2 := h1.memcpy_self (op - off + 8) 8 (by omega) fun k _ => hp 8 k
  exact h2.memcpy_self (op - off + 16) 2 (by omega) fun k _ => hp 16 k

theorem shortcutCopies_out (dst : Mem) (op s : ℕ) {j : ℕ} (hj : op + 18 ≤ j) :
    shortcutCopies dst op s j = dst j := by
  rw [shortcutCopies, memcpy_out _ _ (by omega), memcpy_out _ _ (by omega),
    memcpy_out _ _ (by omega)]

/-- The head reads and writes below `op + 8`. -/
theorem copyMatchHeadEnd_le (op off : ℕ) : copyMatchHeadEnd op off ≤ op + 8 := by
  have hinc : inc32table off ≤ 4 := by
    unfold inc32table
    split <;> omega
  rw [copyMatchHeadEnd]
  split <;> omega

theorem copyMatchHead_out (dst : Mem) (op off : ℕ) {j : ℕ} (hj : op + 8 ≤ j) :
    (copyMatchHead dst op off).1 j = dst j := by
  rw [copyMatchHead]
  split
  · dsimp only
    rw [memcpy_out _ _ (by omega), store_ne _ _ (by omega), store_ne _ _ (by omega),
      store_ne _ _ (by omega), store_ne _ _ (by omega), write32, leStore_out _ _ (by omega)]
  · exact memcpy_out _ _ (by omega)

theorem copyBytes_out (dst : Mem) (op s e : ℕ) {j : ℕ} (hj : e ≤ j) :
    copyBytes dst op s e j = dst j := by
  induction hk : e - op using Nat.strong_induction_on generalizing dst op s with
  | _ k ih =>
    rw [copyBytes]
    split
    · rw [ih (e - (op + 1)) (by omega) _ _ _ rfl]
      exact store_ne _ _ (by omega)
    · rfl

end Match

/-! ## One sequence -/

section Sequence

variable {src p : Mem} {srcSize outputSize : ℕ} {st : DState}

@[simp] theorem within_iff {size q n : ℕ} : within size q n = true ↔ q + n ≤ size :=
  decide_eq_true_iff

/-- From `st` on every access stayed inside the buffers, and nothing past `dst` changed. -/
structure Inside (outputSize : ℕ) (st : DState) (ok : Bool) (dst : Mem) : Prop where
  ok : st.ok = true → ok = true
  kept : ∀ j, outputSize ≤ j → dst j = st.dst j

theorem Inside.trans {st' : DState} {ok : Bool} {dst : Mem}
    (h : Inside outputSize st st'.ok st'.dst) (h' : Inside outputSize st' ok dst) :
    Inside outputSize st ok dst :=
  ⟨fun hok => h'.ok (h.ok hok), fun j hj => (h'.kept j hj).trans (h.kept j hj)⟩

/-- `st'` is `st` moved on to `i` of the block and `a` of the text `p`. -/
structure MovedTo (outputSize : ℕ) (st : DState) (p : Mem) (i a : ℕ) (st' : DState) : Prop where
  ip : st'.ip = i
  op : st'.op = a
  text : Agree st'.dst p a
  inside : Inside outputSize st st'.ok st'.dst

/-- Reading the rest of a match length. -/
theorem matchLength_read {i nibble mc j : ℕ} (hlen : LenField src nibble i mc j)
    (hj : nibble = 15 → j + 4 ≤ srcSize) :
    (if nibble = 15 then readVariableLength src i (srcSize - 5 + 1) false else (some 0, i)) =
      (some (mc - nibble), j) ∧ nibble + (mc - nibble) + 4 = mc + 4 := by
  by_cases hn : nibble = 15
  · obtain ⟨hle, hb⟩ := hlen.long hn
    rw [if_pos hn, readVariableLength_spec hb (by have := hj hn; omega), hn]
    exact ⟨rfl, by omega⟩
  · obtain ⟨hv, hje⟩ := hlen.short hn
    rw [if_neg hn, hv, hje, Nat.sub_self]
    exact ⟨rfl, by omega⟩

/-- The match part of a sequence: wherever the length can be read, the offset is in reach and the
output has room, the bytes of the match are the periodic extension of the text. -/
theorem copyMatch_next {off nibble mc j : ℕ} (hlen : LenField src nibble st.ip mc j)
    (hj : nibble = 15 → j + 4 ≤ srcSize) (hjn : j ≤ srcSize) (hA : Agree st.dst p st.op)
    (hoff : off ≤ st.op) (h12 : st.op + 12 ≤ outputSize)
    (hroom : st.op + (mc + 4) + 5 ≤ outputSize) :
    ∃ st', copyMatch src srcSize outputSize st off nibble = .next st' ∧
      MovedTo outputSize st (extend p st.op off) j (st.op + (mc + 4)) st' := by
  obtain ⟨hread, hnib⟩ := matchLength_read hlen hj
  obtain ⟨hH, hHs, hHp⟩ := copyMatchHead_agree hA hoff
  have hHe := copyMatchHeadEnd_le st.op off
  have hHo := fun j => copyMatchHead_out st.dst st.op off (j := j)
  simp only [copyMatch, ML_MASK, LASTLITERALS, MINMATCH, WILDCOPYLENGTH, hread, hnib,
    if_neg (show ¬ st.op < off by omega), Nat.reduceMul, Nat.reduceSub]
  set m := (copyMatchHead st.dst st.op off).1
  set s := (copyMatchHead st.dst st.op off).2
  by_cases hend : outputSize < st.op + (mc + 4) + 12
  · -- near the end of the output: 8 bytes at a time up to `oCopyLimit`, then single bytes
    rw [if_pos hend, if_neg (by omega)]
    split
    · have hW := Agree.wildCopy8_self (e := outputSize - 7) hH (by omega) hHp
      have hB := copyBytes_agree (e := st.op + (mc + 4)) (s := s + (outputSize - 7 - (st.op + 8)))
        (hW.mono (le_max_left _ _)) (by omega) (fun k => by
          rw [Nat.add_assoc, hHp, ← Nat.add_assoc, Nat.add_sub_cancel' (by omega)])
      have hwe := wildCopyEnd_le (st.op + 8) (outputSize - 7)
      refine ⟨_, rfl, rfl, rfl, hB.mono (le_max_right _ _), fun h => ?_, fun j hj => ?_⟩
      · simp only [h, Bool.and_eq_true, within_iff, true_and]
        omega
      · dsimp only
        rw [copyBytes_out _ _ _ _ (by omega), wildCopy8_out _ _ _ _ _ (by omega), hHo _ (by omega)]
    · have hB := copyBytes_agree (e := st.op + (mc + 4)) hH (by omega) hHp
      refine ⟨_, rfl, rfl, rfl, hB.mono (le_max_right _ _), fun h => ?_, fun j hj => ?_⟩
      · simp only [h, Bool.and_eq_true, within_iff, true_and]
        omega
      · dsimp only
        rw [copyBytes_out _ _ _ _ (by omega), hHo _ (by omega)]
  · rw [if_neg hend]
    have hM := hH.memcpy_self s 8 (by omega) fun k _ => hHp k
    split
    · have hW := Agree.wildCopy8_self (s := s + 8) (e := st.op + (mc + 4)) hM (by omega) (fun k => by
        rw [Nat.add_assoc, Nat.add_assoc (st.op + 8)]
        exact hHp (8 + k))
      have hwe := wildCopyEnd_le (st.op + 8 + 8) (st.op + (mc + 4))
      refine ⟨_, rfl, rfl, rfl, hW.mono (le_max_left _ _), fun h => ?_, fun j hj => ?_⟩
      · simp only [h, Bool.and_eq_true, within_iff, true_and]
        omega
      · dsimp only
        rw [wildCopy8_out _ _ _ _ _ (by omega), memcpy_out _ _ (by omega), hHo _ (by omega)]
    · refine ⟨_, rfl, rfl, rfl, hM.mono (by omega), fun h => ?_, fun j hj => ?_⟩
      · simp only [h, Bool.and_eq_true, within_iff, true_and]
        omega
      · dsimp only
        rw [memcpy_out _ _ (by omega), hHo _ (by omega)]

/-- What a step does that decodes up to `ip` of the block and `op` of the text. -/
def DecodesTo (p : Mem) (ip op : ℕ) (r : Step DState DResult) : Prop :=
  ∃ st', r = .next st' ∧ st'.ip = ip ∧ st'.op = op ∧ Agree st'.dst p op

/-- On a block, that extension is the text. -/
theorem copyMatch_spec {off nibble mc j : ℕ} (hlen : LenField src nibble st.ip mc j)
    (hj : j + 4 ≤ srcSize) (hA : Agree st.dst p st.op) (h0 : 0 < off) (hoff : off ≤ st.op)
    (hc : ∀ k < mc + 4, p (st.op + k) = p (st.op + k - off)) (hroom : RoomAfter outputSize st.op mc) :
    DecodesTo p j (st.op + (mc + 4)) (copyMatch src srcSize outputSize st off nibble) := by
  obtain ⟨st', he, h⟩ := copyMatch_next hlen (fun _ => hj) (by omega) hA hoff hroom.1 hroom.2
  exact ⟨st', he, h.ip, h.op, h.text.trans (extend_agree h0 hoff hc)⟩

/-- The literal part of a sequence that is not the last one, and its match. -/
theorem copyLiterals_seq {i lit pos off mc i' a : ℕ} (hs : SeqAt src p i a lit pos off mc i')
    (hroom : RoomAfter outputSize (a + lit) mc) (hi : i' + 6 ≤ srcSize) (hip : st.ip = pos)
    (hop : st.op = a) (hA : Agree st.dst p a) :
    DecodesTo p i' (a + lit + (mc + 4))
      (copyLiterals src srcSize outputSize st (src i).toNat lit) := by
  have h12 := hroom.1
  have hend := hs.end_le
  subst hip hop
  have hgo : ¬ (outputSize < st.op + lit + 12 ∨ srcSize < st.ip + lit + (2 + 1 + 5)) := by omega
  simp only [copyLiterals, MFLIMIT, LASTLITERALS, if_neg hgo, hs.offset]
  refine copyMatch_spec hs.matchLength (by omega) ?_ hs.off_pos hs.off_le hs.copies hroom
  exact Agree.wildCopy8_ext hA fun k hk => hs.literals k (by omega)

/-- The shortcut: 16 bytes for the literals, then 18 for the match if it is short and far. -/
theorem shortcut_seq {i lit pos off mc i' a : ℕ} (hs : SeqAt src p i a lit pos off mc i')
    (hroom : RoomAfter outputSize (a + lit) mc) (hi : i' + 6 ≤ srcSize) (hip : st.ip = i + 1)
    (hop : st.op = a) (hA : Agree st.dst p a) (hnib : (src i).toNat / 16 ≠ 15) :
    DecodesTo p i' (a + lit + (mc + 4))
      (shortcut src srcSize outputSize st (src i).toNat ((src i).toNat / 16)) := by
  obtain ⟨hlit, hpos⟩ := hs.litLength.short hnib
  have hnib16 : (src i).toNat / 16 < 16 := by have := (src i).toNat_lt; omega
  rw [← hlit] at hnib16 ⊢
  rw [hpos, ← hip] at hs
  subst hop
  have hL : Agree (memcpy src st.dst st.op st.ip 16) p (st.op + lit) :=
    hA.memcpy hs.literals (by omega)
  simp only [shortcut, ML_MASK, MINMATCH, hs.offset]
  split
  · next h =>
    obtain ⟨hm, h8, hoff⟩ := h
    obtain ⟨hmc, hj⟩ := hs.matchLength.short hm
    have hmc16 : (src i).toNat % 16 < 16 := Nat.mod_lt _ (by decide)
    have hext : Agree (extend p (st.op + lit) off) p (st.op + lit + (mc + 4)) :=
      extend_agree hs.off_pos hoff hs.copies
    have hS := shortcutCopies_agree hL h8 hoff
    rw [← hmc]
    exact ⟨_, rfl, hj.symm, rfl, (hS.mono (by omega)).trans hext⟩
  · exact copyMatch_spec hs.matchLength (by omega) hL hs.off_pos hs.off_le hs.copies hroom

/-- **One step decodes one sequence.** -/
theorem decompressStep_seq {lit pos off mc i' : ℕ} (hs : SeqAt src p st.ip st.op lit pos off mc i')
    (hroom : RoomAfter outputSize (st.op + lit) mc) (hi : i' + 6 ≤ srcSize)
    (hA : Agree st.dst p st.op) :
    DecodesTo p i' (st.op + lit + (mc + 4)) (decompressStep src srcSize outputSize st) := by
  have hend := hs.end_le
  simp only [decompressStep, RUN_MASK]
  split
  · next h => exact shortcut_seq hs hroom hi rfl rfl hA h.1
  · split
    · next h =>
      obtain ⟨hlit, hb⟩ := hs.litLength.long h
      have hread := readVariableLength_long srcSize hb (by omega)
      have hle : 15 + (lit - 15) = lit := by omega
      simp only [hread, h, hle]
      exact copyLiterals_seq hs hroom hi rfl rfl hA
    · next h =>
      obtain ⟨hlit, hpos⟩ := hs.litLength.short h
      rw [← hlit]
      exact copyLiterals_seq hs hroom hi hpos.symm rfl hA

/-- The last literals end the run with the whole text. -/
theorem decompressStep_last {total : ℕ} (h : LastAt src p total st.ip st.op srcSize)
    (hcap : total ≤ outputSize) (hA : Agree st.dst p st.op) :
    ∃ r, decompressStep src srcSize outputSize st = .done r ∧ r.ret = total ∧ Agree r.dst p total := by
  obtain ⟨⟨pos, hrun, hn, hlits⟩, hle⟩ := h
  have hlen := hrun.litLength
  have copyLiterals_last : ∀ st' : DState, st'.ip = pos → st'.op = st.op → st'.dst = st.dst →
      ∃ r, copyLiterals src srcSize outputSize st' (src st.ip).toNat (total - st.op) = .done r ∧
        r.ret = total ∧ Agree r.dst p total := by
    intro st' hip hop hdst
    have hlast : outputSize < st'.op + (total - st.op) + 12 ∨
        srcSize < st'.ip + (total - st.op) + (2 + 1 + 5) := by omega
    have hok : ¬ (st'.ip + (total - st.op) ≠ srcSize ∨ outputSize < st'.op + (total - st.op)) := by
      omega
    simp only [copyLiterals, MFLIMIT, LASTLITERALS, if_pos hlast, if_neg hok]
    refine ⟨_, rfl, ?_, ?_⟩
    · simp only [hop, Nat.add_sub_cancel' hle]
    · have : Agree (memcpy src st.dst st.op pos (total - st.op)) p (st.op + (total - st.op)) :=
        hA.memcpy hlits le_rfl
      rw [Nat.add_sub_cancel' hle] at this
      simpa only [hip, hop, hdst] using this
  have hpos := hlen.le
  simp only [decompressStep, RUN_MASK]
  split
  · -- the shortcut asks for more input than the last literals leave
    next h =>
    obtain ⟨hlit, hpe⟩ := hlen.short h.1
    have := (src st.ip).toNat_lt
    omega
  · split
    · next h =>
      obtain ⟨hlit, hb⟩ := hlen.long h
      have hread := readVariableLength_long srcSize hb (by omega)
      have hle : 15 + (total - st.op - 15) = total - st.op := by omega
      simp only [hread, h, hle]
      exact copyLiterals_last _ rfl rfl rfl
    · next h =>
      obtain ⟨hlit, hpe⟩ := hlen.short h
      rw [← hlit]
      exact copyLiterals_last _ hpe.symm rfl rfl

end Sequence

/-! ## A whole block -/

/-- **The decoder decodes every block**, with any room for the text and any old output. -/
theorem decompressSafe_block {src p : Mem} (dst : Mem) {srcSize outputSize total : ℕ}
    (h : Rest src p total srcSize 0 0) (hcap : total ≤ outputSize) (h0 : outputSize ≠ 0) :
    ∃ r, decompressSafe src dst srcSize outputSize = some r ∧ r.ret = total ∧
      Agree r.dst p total := by
  have hn : srcSize ≠ 0 := by have := h.lt; omega
  rw [decompressSafe, if_neg h0, if_neg hn]
  refine run_spec (I := fun st : DState => Rest src p total srcSize st.ip st.op ∧ Agree st.dst p st.op)
    (μ := fun st => srcSize - st.ip) (P := fun r : DResult => r.ret = total ∧ Agree r.dst p total)
    (fun st hst => ?_) _ _ ⟨h, fun i hi => absurd hi (Nat.not_lt_zero i)⟩ (by simp)
  obtain ⟨hrest, hA⟩ := hst
  have hlt := hrest.lt
  cases hrest with
  | last hl => exact .inr (decompressStep_last hl hcap hA)
  | seq hs hroom hr =>
    have hi := hr.room (by have := hroom.2; omega)
    have hlits := hs.lits_le
    have hend := hs.end_le
    obtain ⟨st', he, hip, hop, hA'⟩ := decompressStep_seq hs
      ⟨hroom.1.trans hcap, hroom.2.trans hcap⟩ hi hA
    refine .inl ⟨st', he, ⟨hip ▸ hop ▸ hr, hop ▸ hA'⟩, ?_⟩
    simp only [hip]
    omega

end ZramUpgrade.Lz4
