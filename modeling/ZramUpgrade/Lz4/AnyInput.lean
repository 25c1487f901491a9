import ZramUpgrade.Lz4.Decode
import ZramUpgrade.Lz4.Driver

/-!
# Lz4.AnyInput — the safe decoder on any input

What one step can do from any state between the buffers' ends (`decompressStep_outcome`): fail, copy
the last literals, or decode a sequence whose bytes are there.  In each case every access is inside
`src` and `dst`.  A run of such steps ends, and what it returns fits.
-/

namespace ZramUpgrade.Lz4

open Lib

/-! ## Lengths -/

section Length

variable {ilimit ip n : ℕ}

/-- `read_variable_length` either stops at its limit or has read extension bytes. -/
theorem readVariableLengthLoop_cases (src : Mem) (hip : ip < n) (hl : ilimit < n) : ∀ acc,
    (∃ e ≤ n, readVariableLengthLoop src ilimit ip acc = (none, e)) ∨
      ∃ v j, readVariableLengthLoop src ilimit ip acc = (some (acc + v), j) ∧ LenBytes src ip v j ∧
        j ≤ ilimit := by
  induction hk : ilimit - ip using Nat.strong_induction_on generalizing ip with
  | _ k ih =>
    intro acc
    rw [readVariableLengthLoop]
    by_cases hlim : ilimit < ip + 1
    · exact .inl ⟨ip + 1, hip, by simp only [if_pos hlim]⟩
    · simp only [if_neg hlim]
      by_cases h255 : (src ip).toNat = 255
      · rw [if_pos h255]
        have hb : src ip = 255 := UInt8.toNat_inj.mp h255
        rcases ih (ilimit - (ip + 1)) (by omega) (by omega) rfl (acc + (src ip).toNat) with
          ⟨e, he, h⟩ | ⟨v, j, h, hv, hj⟩
        · exact .inl ⟨e, he, h⟩
        · refine .inr ⟨v + 255, j, ?_, hv.cons hb, hj⟩
          rw [h, h255]
          congr 2
          omega
      · rw [if_neg h255]
        have hlt := (src ip).toNat_lt
        have hdiv : (src ip).toNat / 255 = 0 := Nat.div_eq_of_lt (by omega)
        refine .inr ⟨(src ip).toNat, ip + 1, rfl, ⟨by omega, fun k hk => by omega, ?_⟩, by omega⟩
        rw [hdiv, Nat.add_zero, Nat.mod_eq_of_lt (by omega)]

theorem readVariableLength_cases (src : Mem) (chk : Bool) (hip : ip ≤ n) (hchk : chk = false → ip < n)
    (hl : ilimit < n) :
    (∃ e ≤ n, readVariableLength src ip ilimit chk = (none, e)) ∨
      ∃ v j, readVariableLength src ip ilimit chk = (some v, j) ∧ LenBytes src ip v j ∧
        j ≤ ilimit := by
  rw [readVariableLength]
  by_cases h : chk = true ∧ ilimit ≤ ip
  · exact .inl ⟨ip, hip, if_pos h⟩
  · rw [if_neg h]
    have hlt : ip < n := by
      cases chk with
      | false => exact hchk rfl
      | true => exact (Nat.lt_of_not_le fun hle => h ⟨rfl, hle⟩).trans hl
    rcases readVariableLengthLoop_cases src hlt hl 0 with he | ⟨v, j, h, hv, hj⟩
    · exact .inl he
    · exact .inr ⟨v, j, by rw [h, Nat.zero_add], hv, hj⟩

end Length

/-! ## One step -/

section Outcome

variable {src p : Mem} {srcSize outputSize : ℕ} {st : DState}

/-- An error return, from `st` on. -/
structure Failed (outputSize : ℕ) (st : DState) (r : DResult) : Prop where
  ret : r.ret < 0
  inside : Inside outputSize st r.ok r.dst

/-- The bytes of a sequence at `i` of the block, `a` bytes of text before it; the text the match
refers to is not looked at. -/
structure SeqBytes (b : Mem) (i a lit q off mc i' : ℕ) : Prop where
  litLength : LenField b ((b i).toNat / 16) (i + 1) lit q
  offset : readLE16 b (q + lit) = off
  off_le : off ≤ a + lit
  matchLength : LenField b ((b i).toNat % 16) (q + lit + 2) mc i'

/-- What a step from `st` can come to. -/
inductive Outcome (src : Mem) (srcSize outputSize : ℕ) (st : DState) : Step DState DResult → Prop where
  | error {r : DResult} (h : Failed outputSize st r) : Outcome src srcSize outputSize st (.done r)
  | last {lit q : ℕ} {r : DResult}
      (hlen : LenField src ((src st.ip).toNat / 16) (st.ip + 1) lit q) (hend : q + lit = srcSize)
      (hroom : st.op + lit ≤ outputSize) (hret : r.ret = (st.op + lit : ℕ))
      (htext : Agree r.dst (memcpy src st.dst st.op q lit) (st.op + lit))
      (h : Inside outputSize st r.ok r.dst) : Outcome src srcSize outputSize st (.done r)
  | seq {lit q off mc i' : ℕ} {st' : DState} (hs : SeqBytes src st.ip st.op lit q off mc i')
      (hend : i' < srcSize) (hroom : st.op + lit + (mc + 4) ≤ outputSize)
      (h : MovedTo outputSize st (extend (memcpy src st.dst st.op q lit) (st.op + lit) off) i'
        (st.op + lit + (mc + 4)) st') : Outcome src srcSize outputSize st (.next st')

/-- `goto _output_error` returns a negative number. -/
theorem DState.outputError_failed (st : DState) {ip : ℕ} {ok : Bool} {dst : Mem}
    (h : Inside outputSize st ok dst) : Failed outputSize st ⟨-(ip : ℤ) - 1, dst, ok⟩ :=
  ⟨by show -(ip : ℤ) - 1 < 0; omega, h⟩

/-- What `_copy_match` can come to: it fails, or it found its length, an offset in reach and room. -/
inductive MatchOutcome (src p : Mem) (srcSize outputSize : ℕ) (st : DState) (off nibble : ℕ) :
    Step DState DResult → Prop where
  | error {r : DResult} (h : Failed outputSize st r) :
      MatchOutcome src p srcSize outputSize st off nibble (.done r)
  | copied {mc j : ℕ} {st' : DState} (hlen : LenField src nibble st.ip mc j) (hend : j < srcSize)
      (hoff : off ≤ st.op) (hroom : st.op + (mc + 4) ≤ outputSize)
      (h : MovedTo outputSize st (extend p st.op off) j (st.op + (mc + 4)) st') :
      MatchOutcome src p srcSize outputSize st off nibble (.next st')

/-- Once the length is read: the offset, then the room. -/
theorem copyMatch_found {off nibble mc j : ℕ} (hlen : LenField src nibble st.ip mc j)
    (hj : nibble = 15 → j + 4 ≤ srcSize) (hend : j < srcSize) (h12 : st.op + 12 ≤ outputSize)
    (hA : Agree st.dst p st.op) :
    MatchOutcome src p srcSize outputSize st off nibble
      (copyMatch src srcSize outputSize st off nibble) := by
  by_cases hoff : off ≤ st.op
  swap
  · obtain ⟨hread, hnib⟩ := matchLength_read hlen hj
    simp only [copyMatch, ML_MASK, LASTLITERALS, MINMATCH, hread, hnib,
      if_pos (show st.op < off by omega)]
    refine .error (st.outputError_failed ⟨fun h => ?_, fun i hi => rfl⟩)
    simp only [h, Bool.and_eq_true, within_iff, true_and]
    omega
  by_cases hroom : st.op + (mc + 4) + 5 ≤ outputSize
  swap
  · -- the first 8 bytes are copied before the test
    obtain ⟨hread, hnib⟩ := matchLength_read hlen hj
    have hHe := copyMatchHeadEnd_le st.op off
    simp only [copyMatch, ML_MASK, LASTLITERALS, MINMATCH, WILDCOPYLENGTH, hread, hnib,
      if_neg (show ¬ st.op < off by omega), Nat.reduceMul, Nat.reduceSub,
      if_pos (show outputSize < st.op + (mc + 4) + 12 by omega),
      if_pos (show outputSize < st.op + (mc + 4) + 5 by omega)]
    refine .error (st.outputError_failed ⟨fun h => ?_, fun i hi => ?_⟩)
    · simp only [h, Bool.and_eq_true, within_iff, true_and]
      omega
    · exact copyMatchHead_out _ _ _ (by omega)
  obtain ⟨st', he, h⟩ := copyMatch_next hlen hj hend.le hA hoff h12 hroom
  rw [he]
  exact .copied hlen hend hoff (by omega) h

theorem copyMatch_outcome {off nibble : ℕ} (hip : st.ip < srcSize) (h5 : 5 ≤ srcSize)
    (h12 : st.op + 12 ≤ outputSize) (hn : nibble < 16) (hA : Agree st.dst p st.op) :
    MatchOutcome src p srcSize outputSize st off nibble
      (copyMatch src srcSize outputSize st off nibble) := by
  by_cases h15 : nibble = 15
  · rcases readVariableLength_cases src false (n := srcSize) hip.le (fun _ => hip)
      (show srcSize - 5 + 1 < srcSize by omega) with ⟨e, he, hread⟩ | ⟨v, j, hread, hv, hj⟩
    · simp only [copyMatch, ML_MASK, LASTLITERALS, h15, if_true]
      rw [hread]
      refine .error (st.outputError_failed ⟨fun h => ?_, fun i hi => rfl⟩)
      simp only [h, Bool.and_eq_true, within_iff, true_and]
      omega
    · have hlen : LenField src nibble st.ip (v + 15) j := by
        rw [h15]
        exact LenField.of_le (by omega) (by rwa [Nat.add_sub_cancel])
      exact copyMatch_found hlen (fun _ => by omega) (by omega) h12 hA
  · exact copyMatch_found (LenField.of_lt (by omega)) (fun h => absurd h h15) hip h12 hA

/-- What `_copy_match` comes to after the literals is what the step comes to. -/
theorem MatchOutcome.outcome {st₁ : DState} {lit q off : ℕ} {r : Step DState DResult}
    (h : MatchOutcome src (memcpy src st.dst st.op q lit) srcSize outputSize st₁ off
      ((src st.ip).toNat % 16) r)
    (hlen : LenField src ((src st.ip).toNat / 16) (st.ip + 1) lit q)
    (hoff : readLE16 src (q + lit) = off) (hip : st₁.ip = q + lit + 2) (hop : st₁.op = st.op + lit)
    (hin : Inside outputSize st st₁.ok st₁.dst) : Outcome src srcSize outputSize st r := by
  cases h with
  | error hf => exact .error ⟨hf.ret, hin.trans hf.inside⟩
  | copied hm hend hreach hroom hmv =>
    rw [hop] at hreach hroom hmv
    rw [hip] at hm
    exact .seq ⟨hlen, hoff, hreach, hm⟩ hend hroom ⟨hmv.ip, hmv.op, hmv.text, hin.trans hmv.inside⟩

/-- The literal part: the last literals, or literals and a match. -/
theorem copyLiterals_outcome {st₁ : DState} {lit q : ℕ}
    (hlen : LenField src ((src st.ip).toNat / 16) (st.ip + 1) lit q) (hip : st₁.ip = q)
    (hop : st₁.op = st.op) (hdst : st₁.dst = st.dst)
    (hin : Inside outputSize st st₁.ok st₁.dst) :
    Outcome src srcSize outputSize st
      (copyLiterals src srcSize outputSize st₁ (src st.ip).toNat lit) := by
  simp only [copyLiterals, MFLIMIT, LASTLITERALS, hip, hop, hdst]
  by_cases hend : outputSize < st.op + lit + 12 ∨ srcSize < q + lit + (2 + 1 + 5)
  · rw [if_pos hend]
    by_cases hbad : q + lit ≠ srcSize ∨ outputSize < st.op + lit
    · rw [if_pos hbad]
      exact .error (st.outputError_failed (hdst ▸ hin))
    · rw [if_neg hbad]
      refine .last hlen (by omega) (by omega) rfl (Agree.refl _ _) ⟨fun h => ?_, fun j hj => ?_⟩
      · simp only [hin.ok h, Bool.and_eq_true, within_iff, true_and]
        omega
      · exact memcpy_out _ _ (by omega)
  · rw [if_neg hend]
    have hwe := wildCopyEnd_le st.op (st.op + lit)
    refine (copyMatch_outcome (by dsimp only; omega) (by omega) (by dsimp only; omega)
      (Nat.mod_lt _ (by omega)) ?_).outcome hlen rfl rfl rfl ⟨fun h => ?_, fun j hj => ?_⟩
    · refine Agree.wildCopy8_ext ?_ fun k hk => ?_
      · exact (agree_memcpy _ _ _ _ le_rfl).symm
      · rw [memcpy_in _ _ (by omega) (by omega), Nat.add_sub_cancel_left]
    · simp only [hin.ok h, Bool.and_eq_true, within_iff, true_and]
      omega
    · exact wildCopy8_out _ _ _ _ _ (by omega)

/-- The shortcut stays inside by the one test at its entry. -/
theorem shortcut_outcome {st₁ : DState} (hn : (src st.ip).toNat / 16 ≠ 15) (hip : st₁.ip = st.ip + 1)
    (hop : st₁.op = st.op) (hdst : st₁.dst = st.dst)
    (hin : Inside outputSize st st₁.ok st₁.dst) (hi : st.ip + 1 + 16 < srcSize)
    (ho : st.op + 32 ≤ outputSize) :
    Outcome src srcSize outputSize st
      (shortcut src srcSize outputSize st₁ (src st.ip).toNat ((src st.ip).toNat / 16)) := by
  have hlt := (src st.ip).toNat_lt
  have hlen : LenField src ((src st.ip).toNat / 16) (st.ip + 1) ((src st.ip).toNat / 16)
      (st.ip + 1) := LenField.of_lt (by omega)
  simp only [shortcut, ML_MASK, MINMATCH, hip, hop, hdst]
  set lit := (src st.ip).toNat / 16
  have hL : Agree (memcpy src st.dst st.op (st.ip + 1) 16) (memcpy src st.dst st.op (st.ip + 1) lit)
      (st.op + lit) := by
    refine (agree_memcpy _ _ _ _ le_rfl).symm.memcpy (fun k hk => ?_) (by omega)
    rw [memcpy_in _ _ (by omega) (by omega), Nat.add_sub_cancel_left]
  have hkept : ∀ j, outputSize ≤ j → memcpy src st.dst st.op (st.ip + 1) 16 j = st.dst j :=
    fun j hj => memcpy_out _ _ (by omega)
  split
  · next h =>
    obtain ⟨hm, h8, hoff⟩ := h
    have hmlen : LenField src ((src st.ip).toNat % 16) (st.ip + 1 + lit + 2)
        ((src st.ip).toNat % 16) (st.ip + 1 + lit + 2) := LenField.of_lt (by omega)
    have hS := shortcutCopies_agree hL h8 hoff
    refine .seq ⟨hlen, rfl, hoff, hmlen⟩ (by omega) (by omega)
      ⟨rfl, rfl, hS.mono (by omega), fun h => ?_, fun j hj => ?_⟩
    · simp only [hin.ok h, Bool.and_eq_true, within_iff, true_and]
      omega
    · exact (shortcutCopies_out _ _ _ (by omega)).trans (hkept j hj)
  · refine (copyMatch_outcome (by dsimp only; omega) (by omega) (by dsimp only; omega)
      (Nat.mod_lt _ (by omega)) hL).outcome hlen rfl rfl rfl ⟨fun h => ?_, hkept⟩
    simp only [hin.ok h, Bool.and_eq_true, within_iff, true_and]
    omega

/-- **One step from any state**: with input left and `op` inside the output, a step fails, ends with
the last literals or decodes a sequence, inside the buffers. -/
theorem decompressStep_outcome (src : Mem) (outputSize : ℕ) (hip : st.ip < srcSize) :
    Outcome src srcSize outputSize st (decompressStep src srcSize outputSize st) := by
  have hlt := (src st.ip).toNat_lt
  simp only [decompressStep, RUN_MASK]
  split
  · next h =>
    refine shortcut_outcome h.1 rfl rfl rfl ⟨fun hok => ?_, fun _ _ => rfl⟩ h.2.1 h.2.2
    simp only [hok, Bool.and_eq_true, within_iff, true_and]
    omega
  · split
    · next h15 =>
      rcases readVariableLength_cases src true (n := srcSize) hip (by simp)
        (show srcSize - 15 < srcSize by omega) with ⟨e, he, hread⟩ | ⟨v, j, hread, hv, hj⟩
      · rw [hread]
        refine .error (st.outputError_failed ⟨fun hok => ?_, fun _ _ => rfl⟩)
        simp only [hok, Bool.and_eq_true, within_iff, true_and]
        omega
      · have hlen : LenField src ((src st.ip).toNat / 16) (st.ip + 1) (15 + v) j := by
          rw [h15]
          exact LenField.of_le (by omega) (by rwa [Nat.add_sub_cancel_left])
        rw [hread, h15]
        refine copyLiterals_outcome hlen rfl rfl rfl ⟨fun hok => ?_, fun _ _ => rfl⟩
        simp only [hok, Bool.and_eq_true, within_iff, true_and]
        omega
    · next h15 =>
      refine copyLiterals_outcome (LenField.of_lt (by omega)) rfl rfl rfl
        ⟨fun hok => ?_, fun _ _ => rfl⟩
      simp only [hok, Bool.and_eq_true, within_iff, true_and]
      omega

theorem SeqBytes.lt {i a lit q off mc i' : ℕ} (h : SeqBytes src i a lit q off mc i') : i < i' := by
  have hl := h.litLength.le
  have hm := h.matchLength.le
  omega

end Outcome

/-! ## A whole call -/

/-- Between two steps: input is left, and no access has left the buffers. -/
structure DecodeInv (srcSize outputSize : ℕ) (dst : Mem) (st : DState) : Prop where
  ip : st.ip < srcSize
  op : st.op ≤ outputSize
  ok : st.ok = true
  kept : ∀ j, outputSize ≤ j → st.dst j = dst j

/-- A result inside the buffers: an error, or a size that fits. -/
structure DecodePost (outputSize : ℕ) (dst : Mem) (r : DResult) : Prop where
  ret : r.ret ≤ outputSize
  ok : r.ok = true
  kept : ∀ j, outputSize ≤ j → r.dst j = dst j

theorem decompressStep_good {src dst : Mem} {srcSize outputSize : ℕ} {st : DState}
    (h : DecodeInv srcSize outputSize dst st) :
    GoodStep (decompressStep src srcSize outputSize) (DecodeInv srcSize outputSize dst)
      (fun st => srcSize - st.ip) (DecodePost outputSize dst) st := by
  have hkept : ∀ {ok : Bool} {m : Mem}, Inside outputSize st ok m →
      ∀ j, outputSize ≤ j → m j = dst j := fun hin j hj => (hin.kept j hj).trans (h.kept j hj)
  have hout := decompressStep_outcome src outputSize h.ip
  unfold GoodStep
  cases hr : decompressStep src srcSize outputSize st with
  | next st' =>
    rw [hr] at hout
    cases hout with
    | seq hs hend hroom hmv =>
      have hlt := hs.lt
      have hip := hmv.ip
      refine .inl ⟨st', rfl, ⟨by omega, by rw [hmv.op]; exact hroom, hmv.inside.ok h.ok,
        hkept hmv.inside⟩, ?_⟩
      dsimp only
      omega
  | done r =>
    rw [hr] at hout
    refine .inr ⟨r, rfl, ?_⟩
    cases hout with
    | error hf =>
      have hneg := hf.ret
      exact ⟨by omega, hf.inside.ok h.ok, hkept hf.inside⟩
    | last hlen hend hroom hret htext hin => exact ⟨by omega, hin.ok h.ok, hkept hin⟩

/-- **The decoder is total and stays inside**, on any input and with any room. -/
theorem decompressSafe_inside (src dst : Mem) (srcSize outputSize : ℕ) :
    ∃ r, decompressSafe src dst srcSize outputSize = some r ∧ DecodePost outputSize dst r := by
  rw [decompressSafe]
  by_cases h0 : outputSize = 0
  · rw [if_pos h0]
    refine ⟨_, rfl, ?_, rfl, fun _ _ => rfl⟩
    dsimp only
    split <;> omega
  · rw [if_neg h0]
    by_cases hn : srcSize = 0
    · rw [if_pos hn]
      exact ⟨_, rfl, by dsimp only; omega, rfl, fun _ _ => rfl⟩
    · rw [if_neg hn]
      exact run_spec (fun st => decompressStep_good) _ _
        ⟨Nat.pos_of_ne_zero hn, Nat.zero_le _, rfl, fun _ _ => rfl⟩ (Nat.lt_succ_self _)

/-- **Bounded decompression.**  On any bytes and with any room, a decompression call returns with
every access inside `src` and `dst`: an error that leaves `*dlen` alone, or `0` and a length that
fits. -/
theorem lz4_decompress_inside (ctx : Lz4UpgradeCtx) (src dst : Mem) (slen dlen : ℕ) :
    ∃ r, lz4UpgradeDecompress ctx src slen dst dlen = some r ∧ r.ok = true ∧
      (∀ j, dlen ≤ j → r.dst j = dst j) ∧
      (r.code < 0 ∧ r.dlen = dlen ∨ r.code = 0 ∧ r.dlen ≤ dlen) := by
  rw [lz4UpgradeDecompress]
  by_cases hbig : INT_MAX < slen ∨ INT_MAX < dlen
  · rw [if_pos hbig]
    exact ⟨_, rfl, rfl, fun _ _ => rfl, .inl ⟨show -E2BIG < 0 by decide, rfl⟩⟩
  · rw [if_neg hbig]
    obtain ⟨r, hr, hret, hok, hkept⟩ := decompressSafe_inside src dst slen dlen
    rw [hr]
    simp only [Option.bind_eq_bind, Option.bind_some]
    by_cases hneg : r.ret < 0
    · rw [if_pos hneg]
      exact ⟨_, rfl, hok, hkept, .inl ⟨show -EINVAL < 0 by decide, rfl⟩⟩
    · rw [if_neg hneg]
      exact ⟨_, rfl, hok, hkept, .inr ⟨rfl, by dsimp only; omega⟩⟩

end ZramUpgrade.Lz4
