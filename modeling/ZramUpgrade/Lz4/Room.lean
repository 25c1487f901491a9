import ZramUpgrade.Lz4.RoundTrip

/-!
# Lz4.Room — the compressor stays in its buffers

Under `limitedOutput` every write is behind a test against `olimit`; under `notLimited` there is no
test at all, and the room is that of `LZ4_COMPRESSBOUND`.  Either way the end a test looks at is at
most `capacity` (`Call.Fits.room`), and each writer stays below such an end, its wild copies and
4-byte fills included.
-/

namespace ZramUpgrade.Lz4

open Lib

/-! ## What the writers leave alone -/

section Writers

variable {dst : Mem} {token op len j : ℕ}

theorem writeLength_out (dst : Mem) (op len : ℕ) {j : ℕ} (hj : (writeLength dst op len).2 ≤ j) :
    (writeLength dst op len).1 j = dst j := by
  induction hk : len using Nat.strong_induction_on generalizing dst op len with
  | _ k ih =>
    subst hk
    have hlast := (writeLength_spec dst op len).1.last
    rw [writeLength] at hj ⊢
    by_cases h : 255 ≤ len
    · rw [if_pos h] at hj ⊢
      rw [ih (len - 255) (by omega) (store dst op 255) (op + 1) _ hj rfl]
      have hlt := (writeLength_spec (store dst op 255) (op + 1) (len - 255)).1.lt
      exact store_ne _ _ (by omega)
    · rw [if_neg h] at hj ⊢
      exact store_ne _ _ (by dsimp only at hj; omega)

theorem writeRunLength_out (dst : Mem) (token lit : ℕ)
    (hj : (writeRunLength dst token (token + 1) lit).2 ≤ j) :
    (writeRunLength dst token (token + 1) lit).1 j = dst j := by
  have hlt := (writeRunLength_spec dst token lit).1.lt
  rw [writeRunLength] at hj hlt ⊢
  split
  · next h =>
    rw [if_pos h] at hj hlt
    rw [writeLength_out _ _ _ hj, store_ne _ _ (by omega)]
  · next h =>
    rw [if_neg h] at hj
    exact store_ne _ _ (by dsimp only at hj; omega)

theorem writeFills_out (dst : Mem) (op mc : ℕ) (hj : op + 4 * (mc / 1020) + 4 ≤ j) :
    (writeFills dst op mc).1 j = dst j := by
  induction hk : mc using Nat.strong_induction_on generalizing dst op mc with
  | _ k ih =>
    subst hk
    rw [writeFills]
    split
    · rw [ih (mc - 4 * 255) (by omega) _ _ _ (by omega) rfl, write32, leStore_out _ _ (by omega)]
    · rfl

/-- `writeMatchLength` touches the token and the bytes from `op` to its end. -/
theorem writeMatchLength_out (dst : Mem) (mc : ℕ) (ht : token < op)
    (hend : matchLengthEnd op mc ≤ j) (hj : (writeMatchLength dst token op mc).2 ≤ j) :
    (writeMatchLength dst token op mc).1 j = dst j := by
  simp only [writeMatchLength, matchLengthEnd, ML_MASK] at hend hj ⊢
  split
  · next h =>
    rw [if_pos h] at hend hj
    dsimp only at hj ⊢
    rw [store_ne _ _ (by omega), writeFills_out _ _ _ (by omega), write32,
      leStore_out _ _ (by omega), store_ne _ _ (by omega)]
  · next h =>
    rw [if_neg h] at hend
    exact store_ne _ _ (by omega)

/-- The fills pass the length bytes by 3 at most. -/
theorem matchLengthEnd_le (op mc : ℕ) : matchLengthEnd op mc ≤ op + (mc + 240) / 255 + 3 := by
  simp only [matchLengthEnd, ML_MASK]
  split <;> omega

end Writers

/-! ## The room a call has -/

/-- What the driver's calls promise about `capacity`. -/
structure Call.Fits (c : Call) : Prop where
  limited : c.outputDirective = .limitedOutput → c.maxOutputSize ≤ c.capacity
  free : c.outputDirective = .notLimited → c.inputSize + c.inputSize / 255 + 16 ≤ c.capacity

section Step

variable {c : Call} {dst : Mem}

/-- An end that is within the bound of `LZ4_COMPRESSBOUND` and not refused is inside `dst`. -/
theorem Call.Fits.room (hf : c.Fits) {e : ℕ} (hno : ¬c.overflows e)
    (hb : e ≤ c.inputSize + c.inputSize / 255 + 16) : e ≤ c.capacity := by
  cases hd : c.outputDirective with
  | notLimited => exact hb.trans (hf.free hd)
  | limitedOutput =>
    have hcap := hf.limited hd
    have hle : e ≤ c.maxOutputSize := Nat.le_of_not_lt fun hlt => hno ⟨hd, hlt⟩
    omega

/-- Between two steps: no access has left the buffers, and a match still has room for its offset. -/
structure RoomInv (c : Call) (dst : Mem) (st : EState) : Prop where
  ok : st.ok = true
  kept : ∀ j, c.capacity ≤ j → st.dst j = dst j
  room : ∀ m token, st.point = .nextMatch m token → st.op + 5 ≤ c.capacity

/-- A result inside the buffers; without a limit it is not a failure. -/
structure RoomPost (c : Call) (dst : Mem) (r : EResult) : Prop where
  ok : r.ok = true
  kept : ∀ j, c.capacity ≤ j → r.dst j = dst j
  ret : r.ret ≤ c.capacity
  free : c.outputDirective = .notLimited → r.ret ≠ 0

/-- A step that stays in the buffers. -/
inductive StepRoom (c : Call) (dst : Mem) : Step EState EResult → Prop where
  | next {st : EState} (h : RoomInv c dst st) : StepRoom c dst (.next st)
  | done {r : EResult} (h : RoomPost c dst r) : StepRoom c dst (.done r)

/-- A refused end is a failure under a limit. -/
theorem fail_room {e : ℕ} (ho : c.overflows e) {t : HashTable} {ok : Bool} {m : Mem}
    (hok : ok = true) (hk : ∀ j, c.capacity ≤ j → m j = dst j) : RoomPost c dst ⟨0, t, m, ok⟩ :=
  ⟨hok, hk, Nat.zero_le _, fun hn => by simp [ho.1] at hn⟩

@[simp] theorem Call.readable_iff {q n : ℕ} : c.readable q n = true ↔ q + n ≤ c.inputSize :=
  decide_eq_true_iff

@[simp] theorem Call.writable_iff {q n : ℕ} : c.writable q n = true ↔ q + n ≤ c.capacity :=
  decide_eq_true_iff

theorem hashReadSize_le (tt : TableType) : hashReadSize tt ≤ 8 := by
  rw [hashReadSize]
  split <;> omega

theorem encodeLiterals_room (hf : c.Fits) {st : EState} {m : ℕ}
    (hP : Parsed st.dst c.source c.inputSize st.op st.anchor) (ha : st.anchor < st.ip)
    (hN : st.ip + 12 ≤ c.inputSize) (hm : MatchAt c st.ip m 4) (hok : st.ok = true)
    (hk : ∀ j, c.capacity ≤ j → st.dst j = dst j) : StepRoom c dst (encodeLiterals c st m) := by
  obtain ⟨j, hj, haj, -⟩ := catchUp_spec ha hm
  set ip := (catchUp c st.anchor st.ip m).1 with hip
  set mp := (catchUp c st.anchor st.ip m).2 with hmp
  have hpair : catchUp c st.anchor st.ip m = (ip, mp) := rfl
  have hin : c.catchUpInside st.ip m = true := by
    have hlt := hm.lt
    rw [Call.catchUpInside]
    simp only [Bool.or_eq_true, Bool.and_eq_true, beq_iff_eq, decide_eq_true_eq,
      Call.readable_iff]
    omega
  have hsize := hP.size
  simp only [encodeLiterals, hpair]
  split
  · next ho => exact .done (fail_room ho (by simp only [hok, hin, Bool.and_self]) hk)
  · next hno =>
    have hcap := hf.room hno (by simp only [LASTLITERALS]; omega)
    simp only [LASTLITERALS] at hcap
    have hR := (writeRunLength_spec st.dst st.op (ip - st.anchor)).1
    obtain ⟨hs, hs'⟩ := hR.litLength.size
    have hout := fun j => writeRunLength_out st.dst st.op (ip - st.anchor) (j := j)
    set w := writeRunLength st.dst st.op (st.op + 1) (ip - st.anchor)
    have hwe := wildCopyEnd_le w.2 (w.2 + (ip - st.anchor))
    -- the check counts `litLength / 255` length bytes and 8 bytes of slack
    have hend : max (w.2 + 8) (w.2 + (ip - st.anchor) + 7) ≤ c.capacity := by
      by_cases h15 : ip - st.anchor < 15
      · have := hs' h15
        omega
      · omega
    refine .next ⟨?_, fun j hj => ?_, fun _ _ _ => ?_⟩
    · simp only [hok, hin, Bool.and_eq_true, Call.readable_iff, Call.writable_iff, true_and]
      omega
    · dsimp only
      rw [wildCopy8_out _ _ _ _ _ (by omega), hout _ (by omega), hk j hj]
    · dsimp only
      omega

theorem searchStep_room (hc : c.WF) (hf : c.Fits) {st : EState} {f step nb fh : ℕ}
    (hpt : st.point = .search f step nb fh) (h : EncodeInv c st) (hr : RoomInv c dst st) :
    StepRoom c dst (searchStep c st f step nb fh) := by
  simp only [EncodeInv, hpt] at h
  obtain ⟨hP, ha, hfN, hstep, hnb, ht⟩ := h
  have h8 := hashReadSize_le c.tableType
  simp only [searchStep, MFLIMIT, LZ4_skipTrigger]
  split
  · exact .next ⟨hr.ok, hr.kept, by simp⟩
  · next hgo =>
    have hread : c.readable (f + step) (hashReadSize c.tableType) = true :=
      Call.readable_iff.mpr (by omega)
    have next : ∀ ok, ok = true → StepRoom c dst (.next { st with
        point := .search (f + step) (nb >>> 6) (nb + 1) (c.hashAt (f + step))
        ip := f
        hashTable := putIndexOnHash (c.startIndex + f) fh st.hashTable c.tableType
        ok := ok }) := fun ok hok => .next ⟨hok, hr.kept, by simp⟩
    split
    · exact next _ (by simp only [hr.ok, hread, Bool.and_self])
    · next hvalid =>
      split
      · exact next _ (by simp only [hr.ok, hread, Bool.and_self])
      · next hnear =>
        obtain ⟨hlt, hreach⟩ := matchOf_reach hc ht _ (by omega) hvalid hnear
        have hge := startIndex_le hc hvalid
        have hok : (st.ok && c.readable (f + step) (hashReadSize c.tableType) &&
            decide (c.startIndex ≤ getIndexOnHash fh st.hashTable c.tableType) &&
            c.readable (c.matchOf (getIndexOnHash fh st.hashTable c.tableType)) 4 &&
            c.readable f 4) = true := by
          simp only [hr.ok, hread, hge, Bool.and_eq_true, Call.readable_iff, decide_eq_true_eq,
            true_and]
          omega
        split
        · next he =>
          exact encodeLiterals_room hf hP ha (by dsimp only; omega)
            ⟨hlt, hreach, read32_eq_iff.mp he⟩ hok hr.kept
        · exact next _ hok

theorem afterMatch_room (hc : c.WF) {st : EState}
    (h4 : 4 ≤ st.ip) (ht : IndexBelow c st.hashTable st.ip) (hok : st.ok = true)
    (hk : ∀ j, c.capacity ≤ j → st.dst j = dst j) (hroom : st.op + 6 ≤ c.capacity) :
    StepRoom c dst (afterMatch c st) := by
  have h8 := hashReadSize_le c.tableType
  simp only [afterMatch]
  split
  · exact .next ⟨hok, hk, by simp⟩
  · next hgo =>
    have h12 : st.ip + 12 ≤ c.inputSize := by
      simp only [Call.pastMflimit, MFLIMIT] at hgo
      omega
    have ht2 := ht.put hc (st.ip - 2) (c.hashAt (st.ip - 2)) (by omega) (by omega)
    set table := putIndexOnHash (c.startIndex + (st.ip - 2)) (c.hashAt (st.ip - 2)) st.hashTable
      c.tableType
    set mi := getIndexOnHash (c.hashAt st.ip) table c.tableType with hmi
    have hmatch : (c.dictIssue = .dictSmall → c.prefixIdxLimit ≤ mi) ∧
        (c.tableType = .byU16 ∨ c.startIndex + st.ip ≤ mi + LZ4_DISTANCE_MAX) →
        c.startIndex ≤ mi ∧ c.matchOf mi + 4 ≤ c.inputSize := by
      intro htests
      obtain ⟨hge, hlt, -⟩ := matchOf_reach_next hc ht2 (c.hashAt st.ip) h12 htests
      rw [← hmi] at hlt
      exact ⟨hge, by omega⟩
    have hreads : (st.ok && c.readable (st.ip - 2) (hashReadSize c.tableType) &&
        c.readable st.ip (hashReadSize c.tableType) &&
        (!decide ((c.dictIssue = .dictSmall → c.prefixIdxLimit ≤ mi) ∧
            (c.tableType = .byU16 ∨ c.startIndex + st.ip ≤ mi + LZ4_DISTANCE_MAX)) ||
          decide (c.startIndex ≤ mi) && c.readable (c.matchOf mi) 4)) = true := by
      simp only [hok, Bool.and_eq_true, Bool.or_eq_true, Bool.not_eq_true', decide_eq_false_iff_not,
        decide_eq_true_eq, Call.readable_iff, true_and]
      refine ⟨⟨by omega, by omega⟩, ?_⟩
      by_cases hin : (c.dictIssue = .dictSmall → c.prefixIdxLimit ≤ mi) ∧
          (c.tableType = .byU16 ∨ c.startIndex + st.ip ≤ mi + LZ4_DISTANCE_MAX)
      · exact .inr (hmatch hin)
      · exact .inl hin
    split
    · refine .next ⟨?_, fun j hj => ?_, fun _ _ _ => ?_⟩
      · simp only [hreads, Bool.and_eq_true, Call.writable_iff, true_and]
        omega
      · exact (store_ne _ _ (by omega)).trans (hk j hj)
      · dsimp only
        omega
    · refine .next ⟨?_, hk, by simp⟩
      simp only [hreads, Bool.and_eq_true, Call.readable_iff, true_and]
      omega

/-- The bytes written so far, literals of the pending match included, by the input they stand for. -/
theorem NextMatchInv.size {st : EState} {m token : ℕ} (h : NextMatchInv c st m token) :
    255 * st.op ≤ 256 * st.ip + 495 := by
  obtain ⟨hP, ⟨q, hR, hop, _⟩, hale, _⟩ := h
  have h1 := hP.size
  have h2 := hR.litLength.size.1
  omega

theorem nextMatchStep_room (hc : c.WF) (hf : c.Fits) {st : EState} {m token : ℕ}
    (hpt : st.point = .nextMatch m token) (h : EncodeInv c st) (hr : RoomInv c dst st) :
    StepRoom c dst (nextMatchStep c st m token) := by
  simp only [EncodeInv, hpt] at h
  have hroom := hr.room m token hpt
  have hsize := h.size
  obtain ⟨hlt, -, mc, hmc, hN, ht, -⟩ := h.counted
  obtain ⟨-, ⟨_, hR, hop, -⟩, hale, -⟩ := id h
  have htop := hR.lt
  have hk : ∀ j, c.capacity ≤ j → writeLE16 st.dst st.op (st.ip - m) j = dst j := fun j hj =>
    (leStore_out _ _ (by omega)).trans (hr.kept j hj)
  simp only [nextMatchStep, LASTLITERALS, MINMATCH, hmc]
  have hreads : (st.ok && c.writable st.op 2 &&
      c.readable (st.ip + 4) (c.inputSize - 5 - (st.ip + 4)) &&
      c.readable (m + 4) (c.inputSize - 5 - (st.ip + 4))) = true := by
    simp only [hr.ok, Bool.and_eq_true, Call.readable_iff, Call.writable_iff, true_and]
    omega
  split
  · next ho => exact .done (fail_room ho hreads hk)
  · next hno =>
    have hcap := hf.room hno (by omega)
    have htok : writeLE16 st.dst st.op (st.ip - m) token = st.dst token :=
      agree_leStore _ _ _ le_rfl token (by omega)
    have hlow : (writeLE16 st.dst st.op (st.ip - m) token).toNat % 16 = 0 := by
      rw [htok]
      exact hR.low
    have hnew := (writeMatchLength_spec _ token (st.op + 2) mc (by omega) hlow).1.size.1
    have hend := matchLengthEnd_le (st.op + 2) mc
    have hout : ∀ j, c.capacity ≤ j →
        (writeMatchLength (writeLE16 st.dst st.op (st.ip - m)) token (st.op + 2) mc).1 j = dst j := by
      intro j hj
      rw [writeMatchLength_out _ mc (show token < st.op + 2 by omega) (by omega) (by omega)]
      exact hk j hj
    refine afterMatch_room hc (by dsimp only; omega) ht ?_ hout (by dsimp only; omega)
    simp only [hreads, Bool.and_eq_true, Call.writable_iff, true_and]
    omega

theorem lastLiteralsStep_room (hf : c.Fits) {st : EState} (hpt : st.point = .lastLiterals)
    (h : EncodeInv c st) (hr : RoomInv c dst st) : StepRoom c dst (lastLiteralsStep c st) := by
  simp only [EncodeInv, hpt] at h
  obtain ⟨hP, ha, -⟩ := h
  have hsize := hP.size
  simp only [lastLiteralsStep, RUN_MASK]
  set lastRun := c.inputSize - st.anchor with hrun
  split
  · next ho => exact .done (fail_room ho hr.ok hr.kept)
  · next hno =>
    have hcap := hf.room hno (by omega)
    have hR := (writeRunLength_spec st.dst st.op lastRun).1
    have hlt := hR.lt
    have hlen := hR.litLength.size.1
    have hout : ∀ j, c.capacity ≤ j → (writeRunLength st.dst st.op (st.op + 1) lastRun).1 j = dst j := by
      intro j hj
      rw [writeRunLength_out _ _ _ (by omega)]
      exact hr.kept j hj
    refine .done ⟨?_, fun j hj => ?_, by dsimp only; omega, fun _ => by dsimp only; omega⟩
    · simp only [hr.ok, Bool.and_eq_true, Call.readable_iff, Call.writable_iff, true_and]
      omega
    · exact (memcpy_out _ _ (by omega)).trans (hout j hj)

/-- **Every step stays in the buffers.** -/
theorem encodeStep_room (hc : c.WF) (hf : c.Fits) {st : EState} (h : EncodeInv c st)
    (hr : RoomInv c dst st) : StepRoom c dst (encodeStep c st) := by
  rw [encodeStep]
  cases hpt : st.point with
  | search f step nb fh => exact searchStep_room hc hf hpt h hr
  | nextMatch m token => exact nextMatchStep_room hc hf hpt h hr
  | lastLiterals => exact lastLiteralsStep_room hf hpt h hr

theorem encodeStart_room (t : HashTable) (dst : Mem) : RoomInv c dst (encodeStart c t dst) := by
  have h8 := hashReadSize_le c.tableType
  simp only [encodeStart, LZ4_minLength, MFLIMIT]
  split
  · exact ⟨rfl, fun _ _ => rfl, by simp⟩
  · refine ⟨?_, fun _ _ => rfl, by simp⟩
    simp only [Bool.and_eq_true, Call.readable_iff]
    omega

/-- **A call of the match finder** with room for its limit stays in the buffers. -/
theorem encode_room (hc : c.WF) (hf : c.Fits) {t : HashTable}
    (ht : ∀ h, getIndexOnHash h t c.tableType ≤ c.startIndex) (h0 : 0 < c.inputSize) (dst : Mem) :
    ∃ r, run (encodeStep c) (encodeFuel c) (encodeStart c t dst) = some r ∧ RoomPost c dst r := by
  have hstep : ∀ st, EncodeInv c st ∧ RoomInv c dst st →
      GoodStep (encodeStep c) (fun st => EncodeInv c st ∧ RoomInv c dst st) (encodeMeasure c)
        (fun r => EncodePost c r ∧ RoomPost c dst r) st := by
    rintro st ⟨hI, hR⟩
    have hroom := encodeStep_room hc hf hI hR
    refine (encodeStep_good hc st hI).and (fun st' he => ?_) (fun r he => ?_)
    · rw [he] at hroom
      cases hroom with
      | next h => exact h
    · rw [he] at hroom
      cases hroom with
      | done h => exact h
  obtain ⟨r, hr, -, hpost⟩ := run_spec hstep _ _
    ⟨encodeStart_inv hc ht h0 dst, encodeStart_room t dst⟩ (encodeStart_measure h0 dst)
  exact ⟨r, hr, hpost⟩

end Step

/-! ## The driver -/

section Driver

variable {ctx : Stream} {n : ℕ}

theorem compressBound_eq (hn : n ≤ LZ4_MAX_INPUT_SIZE) : compressBound n = n + n / 255 + 16 := by
  rw [compressBound, if_neg (Nat.not_lt_of_le hn)]

theorem directiveOf_notLimited {capacity : ℕ} :
    directiveOf n capacity = .notLimited ↔ compressBound n ≤ capacity := by
  rw [directiveOf]
  split
  · next h => exact iff_of_true rfl h
  · next h => exact iff_of_false (by simp) h

theorem callOf_fits (hn : n ≤ LZ4_MAX_INPUT_SIZE) (src : Mem) (capacity a : ℕ) :
    (callOf ctx src n capacity a).Fits := by
  refine ⟨fun _ => ?_, fun hd => ?_⟩
  · show maxOutputOf n capacity ≤ capacity
    rw [maxOutputOf]
    split
    · exact Nat.zero_le _
    · exact le_rfl
  · have hb := directiveOf_notLimited.mp hd
    rwa [compressBound_eq hn] at hb

/-- What a finished compression call did to a `dst` of `capacity` bytes. -/
structure CompressRoom (dst : Mem) (n capacity : ℕ) (r : CompressResult) : Prop where
  ok : r.ok = true
  kept : ∀ j, capacity ≤ j → r.dst j = dst j
  ret : r.ret ≤ capacity
  free : n ≤ LZ4_MAX_INPUT_SIZE → n + n / 255 + 16 ≤ capacity → r.ret ≠ 0

/-- **One compression call** stays in its buffers, and with the room of `LZ4_COMPRESSBOUND` it does
not fail. -/
theorem fastReset_room (h : StreamInv ctx) (src dst : Mem) (n capacity acceleration : ℕ) :
    ∃ r, compressFastExtStateFastReset ctx src dst n capacity acceleration = some r ∧
      CompressRoom dst n capacity r := by
  have hprep := prepareTable_prepared (n := n) h
  rw [fastReset_eq, compressGeneric]
  set ctx' := prepareTable ctx n (tableTypeOf n) with hctx'
  split
  · next hmax =>
    exact ⟨_, rfl, rfl, fun _ _ => rfl, Nat.zero_le _, fun hn => absurd hn (Nat.not_le_of_lt hmax)⟩
  · next hmax =>
    split
    · next h0 =>
      subst h0
      have hbound : compressBound 0 = 16 := compressBound_eq (Nat.zero_le _)
      split
      · next hnone =>
        refine ⟨_, rfl, rfl, fun _ _ => rfl, Nat.zero_le _, fun _ hroom => ?_⟩
        exact absurd (directiveOf_notLimited.mpr (hbound.le.trans hroom)) hnone.1
      · next hsome =>
        have hpos : 1 ≤ capacity := by
          by_contra h1
          have hno : ¬ compressBound 0 ≤ capacity := by omega
          refine hsome ⟨fun he => hno (directiveOf_notLimited.mp he), ?_⟩
          rw [maxOutputOf, if_neg hno]
          omega
        refine ⟨_, rfl, decide_eq_true hpos, fun j hj => ?_, hpos, fun _ _ => Nat.one_ne_zero⟩
        exact store_ne _ _ (by omega)
    · next h0 =>
      have hn := Nat.le_of_not_lt hmax
      have hwf := callOf_wf hprep (prepareTable_dictSize ctx n _) hn src capacity
        (one_le_clampAcceleration acceleration)
      obtain ⟨e, he, hpost⟩ := encode_room hwf (callOf_fits hn src capacity _) (prepared_table hprep)
        (Nat.pos_of_ne_zero h0) dst
      refine ⟨_, congrArg (Option.map _) he, hpost.ok, hpost.kept, hpost.ret, fun _ hroom =>
        hpost.free ?_⟩
      exact directiveOf_notLimited.mpr ((compressBound_eq hn).le.trans hroom)

/-- **Bounded compression.**  On a tfm in any state it can be in, with any source and any room, a
compression call returns, reads and writes inside its buffers, reports at most the room it had, and
with the room of `LZ4_COMPRESSBOUND` it succeeds. -/
theorem lz4_compress_inside {ctx : Lz4UpgradeCtx} (h : Reachable ctx) (src dst : Mem)
    (slen dlen : ℕ) :
    ∃ r, lz4UpgradeCompress ctx src slen dst dlen = some r ∧ r.ok = true ∧
      (∀ j, dlen ≤ j → r.dst j = dst j) ∧ (r.code = 0 → r.dlen ≤ dlen) ∧
      (dlen ≤ INT_MAX → slen ≤ LZ4_MAX_INPUT_SIZE → slen + slen / 255 + 16 ≤ dlen → r.code = 0) := by
  rw [lz4UpgradeCompress]
  split
  · next hbig =>
    refine ⟨_, rfl, rfl, fun _ _ => rfl, fun _ => le_rfl, fun hd hs _ => ?_⟩
    simp only [LZ4_MAX_INPUT_SIZE, INT_MAX] at *
    omega
  · obtain ⟨r, hr, hroom⟩ := fastReset_room h.inv src dst slen dlen 1
    rw [hr]
    simp only [Option.bind_eq_bind, Option.bind_some]
    split
    · next h0 => exact ⟨_, rfl, hroom.ok, hroom.kept, fun _ => le_rfl,
        fun _ hs hb => absurd h0 (hroom.free hs hb)⟩
    · exact ⟨_, rfl, hroom.ok, hroom.kept, fun _ => hroom.ret, fun _ _ _ => rfl⟩

/-- 20 equal bytes with the room of their bound, 36, on a tfm that a call without room has used. -/
theorem lz4_compress_inside_reused :
    ∃ r₁ r, lz4UpgradeCompress ⟨initStream⟩ (fun _ => 7) 20 (fun _ => 0) 4 = some r₁ ∧
      lz4UpgradeCompress r₁.ctx (fun _ => 7) 20 (fun _ => 0) 36 = some r ∧ r.ok = true ∧
      (∀ j, 36 ≤ j → r.dst j = 0) ∧ r.dlen ≤ 36 ∧ r.code = 0 := by
  have hinit : Reachable ⟨initStream⟩ := Reachable.init (show lz4UpgradeInit true = .ok ⟨initStream⟩ from rfl)
  obtain ⟨r₁, hr₁, -⟩ := lz4_compress_inside hinit (fun _ => 7) (fun _ => 0) 20 4
  obtain ⟨r, hr, hok, hkept, hlen, hfree⟩ := lz4_compress_inside (hinit.compress hr₁) (fun _ => 7)
    (fun _ => 0) 20 36
  have hcode : r.code = 0 := hfree (by decide) (by decide) (by decide)
  exact ⟨r₁, r, hr₁, hr, hok, hkept, hlen hcode, hcode⟩

end Driver

end ZramUpgrade.Lz4
