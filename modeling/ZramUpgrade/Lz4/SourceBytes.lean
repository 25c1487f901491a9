import ZramUpgrade.Lz4.AnyInput
import ZramUpgrade.Lz4.Room

/-!
# Lz4.SourceBytes — what a call reads of its source

`ok` says of every access that it is in the buffers; here it is tied to the values read.  A step that ends
with `ok` is the same step on any source with the same bytes below the input size, whatever lies behind
them (`encodeStep_source`, `decompressStep_source`).  With `ok` on every run, code, length, bytes and tfm
depend on these bytes only.
-/

namespace ZramUpgrade.Lz4

open Lib

/-! ## What the primitives read -/

section Primitives

variable {m m' src src' : Mem} {n : ℕ}

theorem read_congr {p k : ℕ} (h : Agree m m' n) (hp : p + k ≤ n) : leValue m p k = leValue m' p k :=
  leValue_congr fun i hi => h _ (by omega)

theorem hashPosition_congr {p : ℕ} {tt : TableType} (h : Agree m m' n) (hp : p + hashReadSize tt ≤ n) :
    hashPosition m p tt = hashPosition m' p tt := by
  rw [hashPosition, hashPosition]
  rw [hashReadSize] at hp
  split
  · next htt =>
    rw [if_pos htt] at hp
    rw [readARCH, readARCH, read_congr h hp]
  · next htt =>
    rw [if_neg htt] at hp
    rw [read32, read32, read_congr h hp]

theorem count_past {p q limit : ℕ} (h : limit < p) : count m p q limit = 0 := by
  have h0 : ¬p < limit := by omega
  have h1 : ¬p + 1 < limit := by omega
  have h3 : ¬p + 3 < limit := by omega
  have h7 : ¬p + 7 < limit := by omega
  rw [count, countWords, if_neg h7]
  simp only [countTail, h0, h1, h3, false_and, if_false, Nat.sub_self]

/-- `LZ4_count` is told by the bytes up to its limit. -/
theorem count_congr {p q limit : ℕ} (h : Agree m m' n) (hlim : limit ≤ n) (hq : q + (limit - p) ≤ n) :
    count m p q limit = count m' p q limit := by
  by_cases hp : p ≤ limit
  swap
  · rw [count_past (not_le.mp hp), count_past (not_le.mp hp)]
  have hle : ∀ {m m' : Mem}, Agree m m' n → count m p q limit ≤ count m' p q limit := by
    intro m m' h
    obtain ⟨hend, heq⟩ := count_spec (m := m) p q limit hp
    have hkeep : ∀ k < p + count m p q limit - p, m' (q + k) = m' (p + k) := fun k hk => by
      rw [← h _ (by omega), ← h _ (by omega)]
      exact heq k (by omega)
    have := le_count hp hend hkeep
    omega
  exact le_antisymm (hle h) (hle h.symm)

theorem copy_congr {d s k : ℕ} (m : Mem) (h : Agree src src' n) (hs : s + k ≤ n) :
    memcpy src m d s k = memcpy src' m d s k :=
  memcpy_congr m fun i hi => h (s + i) (by omega)

theorem wildCopy8_congr {d s e : ℕ} (m : Mem) (h : Agree src src' n) (hs : s + (wildCopyEnd d e - d) ≤ n) :
    wildCopy8 (fun _ => src) m d s e = wildCopy8 (fun _ => src') m d s e := by
  induction hk : e - d using Nat.strong_induction_on generalizing m d s with
  | _ k ih =>
    rw [wildCopyEnd] at hs
    have hcopy : memcpy src m d s 8 = memcpy src' m d s 8 := copy_congr m h (by omega)
    rw [wildCopy8, wildCopy8.eq_1 fun _ => src', hcopy]
    by_cases hmore : d + 8 < e
    · rw [if_pos hmore, if_pos hmore]
      refine ih (e - (d + 8)) (by omega) _ ?_ rfl
      rw [wildCopyEnd]
      omega
    · rw [if_neg hmore, if_neg hmore]

end Primitives

/-! ## The steps of the encoder -/

/-- The same call on another source. -/
abbrev Call.withSource (c : Call) (src : Mem) : Call := { c with source := src }

/-- A step of the encoder that leaves `ok`. -/
def EncodeOk (x : Step EState EResult) : Prop := x.Holds (fun st => st.ok = true) (fun r => r.ok = true)

section Encode

variable {c : Call} {src : Mem} {st : EState}

@[simp] theorem encodeOk_next : EncodeOk (.next st) ↔ st.ok = true := Iff.rfl
@[simp] theorem encodeOk_done {r : EResult} : EncodeOk (.done r) ↔ r.ok = true := Iff.rfl
@[simp] theorem encodeOk_fail : EncodeOk st.fail ↔ st.ok = true := Iff.rfl

theorem withSource_source (c : Call) (src : Mem) : (c.withSource src).source = src := rfl

theorem withSource_matchOf (c : Call) (src : Mem) (i : ℕ) : (c.withSource src).matchOf i = c.matchOf i := rfl

theorem withSource_overflows (c : Call) (src : Mem) (n : ℕ) :
    (c.withSource src).overflows n ↔ c.overflows n := Iff.rfl

theorem withSource_pastMflimit (c : Call) (src : Mem) (p : ℕ) :
    (c.withSource src).pastMflimit p ↔ c.pastMflimit p := Iff.rfl

theorem withSource_readable (c : Call) (src : Mem) (p n : ℕ) :
    (c.withSource src).readable p n = c.readable p n := rfl

theorem withSource_writable (c : Call) (src : Mem) (p n : ℕ) :
    (c.withSource src).writable p n = c.writable p n := rfl

theorem withSource_catchUpInside (c : Call) (src : Mem) (ip m : ℕ) :
    (c.withSource src).catchUpInside ip m = c.catchUpInside ip m := rfl

theorem withSource_hashAt (h : Agree c.source src c.inputSize) {p : ℕ}
    (hp : c.readable p (hashReadSize c.tableType) = true) : (c.withSource src).hashAt p = c.hashAt p :=
  (hashPosition_congr h (Call.readable_iff.mp hp)).symm

theorem read32_source (h : Agree c.source src c.inputSize) {p : ℕ} (hp : c.readable p 4 = true) :
    read32 src p = read32 c.source p :=
  (read_congr h (Call.readable_iff.mp hp)).symm

/-- Where the hash of a position is read, so is its word. -/
theorem readable_of_hash {p : ℕ} (hp : c.readable p (hashReadSize c.tableType) = true) :
    c.readable p 4 = true := by
  rw [Call.readable_iff, hashReadSize] at hp
  rw [Call.readable_iff]
  split at hp <;> omega

theorem catchUpLoop_source (h : Agree c.source src c.inputSize) (anchor : ℕ) : ∀ ip m,
    ip ≤ c.inputSize → m ≤ c.inputSize →
      catchUpLoop (c.withSource src) anchor ip m = catchUpLoop c anchor ip m := by
  intro ip m
  induction m generalizing ip with
  | zero => exact fun _ _ => rfl
  | succ m ih =>
    intro hip hm
    rw [catchUpLoop, catchUpLoop, withSource_source]
    by_cases hgo : anchor < ip - 1 ∧ 0 < m
    · rw [← h (ip - 1 - 1) (by omega), ← h (m - 1) (by omega), ih (ip - 1) (by omega) (by omega)]
    · rw [if_neg fun hc => hgo ⟨hc.1, hc.2.1⟩, if_neg fun hc => hgo ⟨hc.1, hc.2.1⟩]

theorem catchUp_source (h : Agree c.source src c.inputSize) {anchor ip m : ℕ}
    (hin : c.catchUpInside ip m = true) : catchUp (c.withSource src) anchor ip m = catchUp c anchor ip m := by
  rw [catchUp, catchUp, withSource_source]
  by_cases hm : 0 < m
  · rw [Call.catchUpInside] at hin
    simp only [Bool.or_eq_true, Bool.and_eq_true, beq_iff_eq, decide_eq_true_eq, Call.readable_iff] at hin
    rw [← h (ip - 1) (by omega), ← h (m - 1) (by omega),
      catchUpLoop_source h anchor ip m (by omega) (by omega)]
  · rw [if_neg fun hc => hm hc.1, if_neg fun hc => hm hc.1]

theorem encodeLiterals_source (h : Agree c.source src c.inputSize) {m : ℕ}
    (hok : EncodeOk (encodeLiterals c st m)) :
    st.ok = true ∧ encodeLiterals (c.withSource src) st m = encodeLiterals c st m := by
  simp only [encodeLiterals] at hok ⊢
  by_cases hover : c.overflows (st.op + 1 + ((catchUp c st.anchor st.ip m).1 - st.anchor) +
      (2 + 1 + LASTLITERALS) + ((catchUp c st.anchor st.ip m).1 - st.anchor) / 255)
  · simp only [if_pos hover, encodeOk_fail, Bool.and_eq_true] at hok
    obtain ⟨hst, hin⟩ := hok
    refine ⟨hst, ?_⟩
    simp only [catchUp_source h hin, withSource_overflows, if_pos hover, withSource_catchUpInside]
  · simp only [if_neg hover, encodeOk_next, Bool.and_eq_true] at hok
    obtain ⟨⟨⟨hst, hin⟩, hread⟩, -⟩ := hok
    refine ⟨hst, ?_⟩
    have hcopy := fun dst => wildCopy8_congr dst h (Call.readable_iff.mp hread)
    simp only [catchUp_source h hin, withSource_overflows, if_neg hover, withSource_catchUpInside, ← hcopy,
      withSource_readable, withSource_writable]

theorem searchStep_source (h : Agree c.source src c.inputSize) {f step nb fh : ℕ}
    (hok : EncodeOk (searchStep c st f step nb fh)) :
    st.ok = true ∧ searchStep (c.withSource src) st f step nb fh = searchStep c st f step nb fh := by
  simp only [searchStep, withSource_matchOf, withSource_readable] at hok ⊢
  by_cases hend : c.inputSize + 1 < f + step + MFLIMIT
  · simp only [if_pos hend, encodeOk_next] at hok
    exact ⟨hok, by simp only [if_pos hend]⟩
  simp only [if_neg hend] at hok ⊢
  set mi := getIndexOnHash fh st.hashTable c.tableType
  by_cases hold : c.dictIssue = .dictSmall ∧ mi < c.prefixIdxLimit
  · simp only [if_pos hold, encodeOk_next, Bool.and_eq_true] at hok
    exact ⟨hok.1, by simp only [if_pos hold, withSource_hashAt h hok.2]⟩
  simp only [if_neg hold] at hok ⊢
  by_cases hfar : c.tableType ≠ .byU16 ∧ mi + LZ4_DISTANCE_MAX < c.startIndex + f
  · simp only [if_pos hfar, encodeOk_next, Bool.and_eq_true] at hok
    exact ⟨hok.1, by simp only [if_pos hfar, withSource_hashAt h hok.2]⟩
  simp only [if_neg hfar] at hok ⊢
  by_cases heq : read32 c.source (c.matchOf mi) = read32 c.source f
  · simp only [if_pos heq] at hok
    obtain ⟨hst, hnext⟩ := encodeLiterals_source h hok
    simp only [Bool.and_eq_true] at hst
    obtain ⟨⟨⟨⟨hst, hf⟩, -⟩, hm⟩, hi⟩ := hst
    refine ⟨hst, ?_⟩
    simp only [read32_source h hm, read32_source h hi, if_pos heq, withSource_hashAt h hf]
    exact hnext
  · simp only [if_neg heq, encodeOk_next, Bool.and_eq_true] at hok
    obtain ⟨⟨⟨⟨hst, hf⟩, -⟩, hm⟩, hi⟩ := hok
    refine ⟨hst, ?_⟩
    simp only [read32_source h hm, read32_source h hi, if_neg heq, withSource_hashAt h hf]

theorem afterMatch_source (h : Agree c.source src c.inputSize) (hok : EncodeOk (afterMatch c st)) :
    st.ok = true ∧ afterMatch (c.withSource src) st = afterMatch c st := by
  simp only [afterMatch, withSource_pastMflimit, withSource_matchOf, withSource_readable,
    withSource_writable] at hok ⊢
  by_cases hend : c.pastMflimit st.ip
  · simp only [if_pos hend, encodeOk_next] at hok
    exact ⟨hok, by simp only [if_pos hend]⟩
  simp only [if_neg hend] at hok ⊢
  set table := putIndexOnHash (c.startIndex + (st.ip - 2)) (c.hashAt (st.ip - 2)) st.hashTable c.tableType
  set mi := getIndexOnHash (c.hashAt st.ip) table c.tableType
  by_cases hmatch : ((c.dictIssue = .dictSmall → c.prefixIdxLimit ≤ mi) ∧
      (c.tableType = .byU16 ∨ c.startIndex + st.ip ≤ mi + LZ4_DISTANCE_MAX)) ∧
      read32 c.source (c.matchOf mi) = read32 c.source st.ip
  · rw [if_pos hmatch] at hok
    simp only [encodeOk_next, Bool.and_eq_true, Bool.or_eq_true, Bool.not_eq_true',
      decide_eq_false_iff_not] at hok
    obtain ⟨⟨⟨⟨hst, h2⟩, h1⟩, hm⟩, -⟩ := hok
    have hm := (hm.resolve_left (not_not.mpr hmatch.1)).2
    have hmatch' := hmatch
    rw [← read32_source h hm, ← read32_source h (readable_of_hash h1)] at hmatch'
    refine ⟨hst, ?_⟩
    rw [withSource_hashAt h h2, withSource_hashAt h h1, if_pos hmatch]
    exact if_pos hmatch'
  · rw [if_neg hmatch] at hok
    simp only [encodeOk_next, Bool.and_eq_true, Bool.or_eq_true, Bool.not_eq_true',
      decide_eq_false_iff_not] at hok
    obtain ⟨⟨⟨⟨hst, h2⟩, h1⟩, hm⟩, h3⟩ := hok
    have hmatch' : ¬(((c.dictIssue = .dictSmall → c.prefixIdxLimit ≤ mi) ∧
        (c.tableType = .byU16 ∨ c.startIndex + st.ip ≤ mi + LZ4_DISTANCE_MAX)) ∧
        read32 src (c.matchOf mi) = read32 src st.ip) := fun hm' => by
      have hm := (hm.resolve_left (not_not.mpr hm'.1)).2
      rw [read32_source h hm, read32_source h (readable_of_hash h1)] at hm'
      exact hmatch hm'
    refine ⟨hst, ?_⟩
    rw [withSource_hashAt h h2, withSource_hashAt h h1, withSource_hashAt h h3, if_neg hmatch]
    exact if_neg hmatch'

theorem nextMatchStep_source (h : Agree c.source src c.inputSize) {m token : ℕ}
    (hok : EncodeOk (nextMatchStep c st m token)) :
    st.ok = true ∧ nextMatchStep (c.withSource src) st m token = nextMatchStep c st m token := by
  simp only [nextMatchStep, withSource_overflows, withSource_readable, withSource_writable] at hok ⊢
  have hlim : c.inputSize - LASTLITERALS ≤ c.inputSize := Nat.sub_le _ _
  set mc := count c.source (st.ip + MINMATCH) (m + MINMATCH) (c.inputSize - LASTLITERALS) with hmc
  by_cases hover : c.overflows (st.op + 2 + (1 + LASTLITERALS) + (mc + 240) / 255)
  · simp only [if_pos hover, encodeOk_fail, Bool.and_eq_true, Call.readable_iff] at hok
    obtain ⟨⟨⟨hst, -⟩, -⟩, hm⟩ := hok
    refine ⟨hst, ?_⟩
    rw [← count_congr h hlim hm]
    simp only [← hmc, if_pos hover]
  · simp only [if_neg hover] at hok
    obtain ⟨hst, hnext⟩ := afterMatch_source h hok
    simp only [Bool.and_eq_true] at hst
    obtain ⟨⟨⟨⟨⟨hst, -⟩, -⟩, hm⟩, -⟩, -⟩ := hst
    refine ⟨hst, ?_⟩
    rw [← count_congr h hlim (Call.readable_iff.mp hm)]
    simp only [← hmc, if_neg hover]
    exact hnext

theorem lastLiteralsStep_source (h : Agree c.source src c.inputSize) (hok : EncodeOk (lastLiteralsStep c st)) :
    st.ok = true ∧ lastLiteralsStep (c.withSource src) st = lastLiteralsStep c st := by
  simp only [lastLiteralsStep, withSource_overflows, withSource_readable, withSource_writable] at hok ⊢
  by_cases hover : c.overflows (st.op + (c.inputSize - st.anchor) + 1 +
      (c.inputSize - st.anchor + 255 - RUN_MASK) / 255)
  · simp only [if_pos hover, encodeOk_fail] at hok
    exact ⟨hok, by simp only [if_pos hover]⟩
  · simp only [if_neg hover, encodeOk_done, Bool.and_eq_true, Call.readable_iff] at hok
    obtain ⟨⟨hst, hread⟩, -⟩ := hok
    exact ⟨hst, by simp only [if_neg hover, ← copy_congr _ h hread]⟩

/-- **A step of the encoder** that leaves `ok` is the same on another source. -/
theorem encodeStep_source (h : Agree c.source src c.inputSize) (hok : EncodeOk (encodeStep c st)) :
    st.ok = true ∧ encodeStep (c.withSource src) st = encodeStep c st := by
  rw [encodeStep] at hok
  rw [encodeStep, encodeStep]
  cases hpt : st.point with
  | search f step nb fh =>
    rw [hpt] at hok
    exact searchStep_source h hok
  | nextMatch m token =>
    rw [hpt] at hok
    exact nextMatchStep_source h hok
  | lastLiterals =>
    rw [hpt] at hok
    exact lastLiteralsStep_source h hok

theorem encodeStart_source (h : Agree c.source src c.inputSize) {t : HashTable} {dst : Mem}
    (hok : (encodeStart c t dst).ok = true) :
    encodeStart (c.withSource src) t dst = encodeStart c t dst := by
  simp only [encodeStart, withSource_readable] at hok ⊢
  by_cases hlen : c.inputSize < LZ4_minLength
  · simp only [if_pos hlen]
  · simp only [if_neg hlen, Bool.and_eq_true] at hok
    simp only [if_neg hlen, withSource_hashAt h hok.1, withSource_hashAt h hok.2]

/-- **A run of the encoder** that ends with `ok`. -/
theorem encode_source (h : Agree c.source src c.inputSize) {t : HashTable} {dst : Mem} {n : ℕ} {r : EResult}
    (hrun : run (encodeStep c) n (encodeStart c t dst) = some r) (hok : r.ok = true) :
    run (encodeStep (c.withSource src)) n (encodeStart (c.withSource src) t dst) = some r := by
  have hstep : ∀ st, EncodeOk (encodeStep c st) →
      st.ok = true ∧ encodeStep (c.withSource src) st = encodeStep c st := fun st => encodeStep_source h
  obtain ⟨hstart, hrun'⟩ := run_congr hstep n _ hrun hok
  rw [encodeStart_source h hstart]
  exact hrun'

end Encode

/-! ## The steps of the decoder -/

/-- A step of the decoder that leaves `ok`. -/
def DecodeOk (x : Step DState DResult) : Prop := x.Holds (fun st => st.ok = true) (fun r => r.ok = true)

section Decode

variable {src src' : Mem} {srcSize outputSize : ℕ} {st : DState}

@[simp] theorem decodeOk_next : DecodeOk (.next st) ↔ st.ok = true := Iff.rfl
@[simp] theorem decodeOk_done {r : DResult} : DecodeOk (.done r) ↔ r.ok = true := Iff.rfl
@[simp] theorem decodeOk_outputError : DecodeOk st.outputError ↔ st.ok = true := Iff.rfl

theorem lt_readVariableLengthLoop (src : Mem) (ilimit ip length : ℕ) :
    ip < (readVariableLengthLoop src ilimit ip length).2 := by
  induction hk : ilimit - ip using Nat.strong_induction_on generalizing ip length with
  | _ k ih =>
    rw [readVariableLengthLoop]
    by_cases hlim : ilimit < ip + 1
    · simp only [if_pos hlim]
      exact Nat.lt_succ_self ip
    · simp only [if_neg hlim]
      by_cases h255 : (src ip).toNat = 255
      · rw [if_pos h255]
        exact (Nat.lt_succ_self ip).trans (ih (ilimit - (ip + 1)) (by omega) _ _ rfl)
      · rw [if_neg h255]
        exact Nat.lt_succ_self ip

theorem readVariableLengthLoop_congr (h : Agree src src' srcSize) {ilimit ip length : ℕ}
    (hend : (readVariableLengthLoop src ilimit ip length).2 ≤ srcSize) :
    readVariableLengthLoop src' ilimit ip length = readVariableLengthLoop src ilimit ip length := by
  induction hk : ilimit - ip using Nat.strong_induction_on generalizing ip length with
  | _ k ih =>
    have hip := (lt_readVariableLengthLoop src ilimit ip length).trans_le hend
    rw [readVariableLengthLoop] at hend
    rw [readVariableLengthLoop, readVariableLengthLoop.eq_1 src, ← h ip hip]
    by_cases hlim : ilimit < ip + 1
    · simp only [if_pos hlim]
    · simp only [if_neg hlim] at hend ⊢
      by_cases h255 : (src ip).toNat = 255
      · rw [if_pos h255] at hend ⊢
        rw [if_pos h255]
        exact ih (ilimit - (ip + 1)) (by omega) hend rfl
      · rw [if_neg h255, if_neg h255]

theorem readVariableLength_congr (h : Agree src src' srcSize) {ip ilimit : ℕ} {chk : Bool}
    (hend : (readVariableLength src ip ilimit chk).2 ≤ srcSize) :
    readVariableLength src' ip ilimit chk = readVariableLength src ip ilimit chk := by
  rw [readVariableLength] at hend
  rw [readVariableLength, readVariableLength]
  by_cases hchk : chk = true ∧ ilimit ≤ ip
  · rw [if_pos hchk, if_pos hchk]
  · rw [if_neg hchk] at hend
    rw [if_neg hchk, if_neg hchk, readVariableLengthLoop_congr h hend]

/-- Every outcome of `_copy_match` has read its length in the source. -/
theorem copyMatch_ok {off nibble : ℕ} (hok : DecodeOk (copyMatch src srcSize outputSize st off nibble)) :
    st.ok = true ∧ (if nibble = ML_MASK then readVariableLength src st.ip (srcSize - LASTLITERALS + 1) false
      else (some 0, st.ip)).2 ≤ srcSize := by
  simp only [copyMatch] at hok
  generalize (if nibble = ML_MASK then _ else _ : Option ℕ × ℕ) = r at hok ⊢
  obtain ⟨addl, ip⟩ := r
  cases addl with
  | none =>
    simp only [decodeOk_outputError, Bool.and_eq_true, within_iff] at hok
    exact hok
  | some addl =>
    dsimp only at hok
    -- the length comes before every other access
    split at hok
    · simp only [decodeOk_outputError, Bool.and_eq_true, within_iff] at hok
      exact hok
    · split at hok
      · split at hok
        · simp only [decodeOk_outputError, Bool.and_eq_true, within_iff] at hok
          exact hok.1.1
        · split at hok
          · simp only [decodeOk_next, Bool.and_eq_true, within_iff] at hok
            exact hok.1.1.1.1.1.1
          · simp only [decodeOk_next, Bool.and_eq_true, within_iff] at hok
            exact hok.1.1.1.1
      · split at hok
        · simp only [decodeOk_next, Bool.and_eq_true, within_iff] at hok
          exact hok.1.1.1.1.1.1
        · simp only [decodeOk_next, Bool.and_eq_true, within_iff] at hok
          exact hok.1.1.1.1

theorem copyMatch_source (h : Agree src src' srcSize) {off nibble : ℕ}
    (hok : DecodeOk (copyMatch src srcSize outputSize st off nibble)) :
    st.ok = true ∧ copyMatch src' srcSize outputSize st off nibble =
      copyMatch src srcSize outputSize st off nibble := by
  obtain ⟨hst, hend⟩ := copyMatch_ok hok
  refine ⟨hst, ?_⟩
  by_cases hlen : nibble = ML_MASK
  · rw [if_pos hlen] at hend
    simp only [copyMatch, if_pos hlen, readVariableLength_congr h hend]
  · simp only [copyMatch, if_neg hlen]

theorem readLE16_congr (h : Agree src src' srcSize) {p : ℕ} (hp : within srcSize p 2 = true) :
    readLE16 src' p = readLE16 src p :=
  (read_congr h (within_iff.mp hp)).symm

theorem copyLiterals_source (h : Agree src src' srcSize) {token length : ℕ}
    (hok : DecodeOk (copyLiterals src srcSize outputSize st token length)) :
    st.ok = true ∧ copyLiterals src' srcSize outputSize st token length =
      copyLiterals src srcSize outputSize st token length := by
  simp only [copyLiterals] at hok ⊢
  by_cases hlast : outputSize < st.op + length + MFLIMIT ∨
      srcSize < st.ip + length + (2 + 1 + LASTLITERALS)
  · simp only [if_pos hlast] at hok ⊢
    by_cases herr : st.ip + length ≠ srcSize ∨ outputSize < st.op + length
    · simp only [if_pos herr, decodeOk_outputError] at hok ⊢
      exact ⟨hok, trivial⟩
    · simp only [if_neg herr, decodeOk_done, Bool.and_eq_true, within_iff] at hok ⊢
      obtain ⟨⟨hst, hread⟩, -⟩ := hok
      refine ⟨hst, ?_⟩
      rw [copy_congr st.dst h hread]
  · simp only [if_neg hlast] at hok ⊢
    obtain ⟨hst, hnext⟩ := copyMatch_source h hok
    simp only [Bool.and_eq_true] at hst
    obtain ⟨⟨⟨hst, hread⟩, -⟩, hoff⟩ := hst
    refine ⟨hst, ?_⟩
    rw [← wildCopy8_congr st.dst h (within_iff.mp hread), readLE16_congr h hoff]
    exact hnext

theorem shortcut_source (h : Agree src src' srcSize) {token length : ℕ}
    (hok : DecodeOk (shortcut src srcSize outputSize st token length)) :
    st.ok = true ∧ shortcut src' srcSize outputSize st token length =
      shortcut src srcSize outputSize st token length := by
  simp only [shortcut] at hok ⊢
  by_cases hmatch : token % 16 ≠ ML_MASK ∧ 8 ≤ readLE16 src (st.ip + length) ∧
      readLE16 src (st.ip + length) ≤ st.op + length
  · simp only [if_pos hmatch, decodeOk_next, Bool.and_eq_true] at hok
    obtain ⟨⟨⟨⟨⟨hst, hread⟩, -⟩, hoff⟩, -⟩, -⟩ := hok
    have hcopy : memcpy src' st.dst st.op st.ip 16 = memcpy src st.dst st.op st.ip 16 :=
      (copy_congr st.dst h (within_iff.mp hread)).symm
    refine ⟨hst, ?_⟩
    rw [hcopy, readLE16_congr h hoff, if_pos hmatch, if_pos hmatch]
  · simp only [if_neg hmatch] at hok
    obtain ⟨hst, hnext⟩ := copyMatch_source h hok
    simp only [Bool.and_eq_true] at hst
    obtain ⟨⟨⟨hst, hread⟩, -⟩, hoff⟩ := hst
    have hcopy : memcpy src' st.dst st.op st.ip 16 = memcpy src st.dst st.op st.ip 16 :=
      (copy_congr st.dst h (within_iff.mp hread)).symm
    refine ⟨hst, ?_⟩
    rw [hcopy, readLE16_congr h hoff, if_neg hmatch, if_neg hmatch]
    exact hnext

/-- **A step of the decoder** that leaves `ok` is the same on another source. -/
theorem decompressStep_source (h : Agree src src' srcSize)
    (hok : DecodeOk (decompressStep src srcSize outputSize st)) :
    st.ok = true ∧ decompressStep src' srcSize outputSize st = decompressStep src srcSize outputSize st := by
  simp only [decompressStep] at hok ⊢
  have htoken : within srcSize st.ip 1 = true → src' st.ip = src st.ip := fun hin =>
    (h _ (by rw [within_iff] at hin; omega)).symm
  by_cases hcut : (src st.ip).toNat / 16 ≠ RUN_MASK ∧ st.ip + 1 + (14 + 2) < srcSize ∧
      st.op + (14 + 18) ≤ outputSize
  · simp only [if_pos hcut] at hok ⊢
    obtain ⟨hst, hnext⟩ := shortcut_source h hok
    simp only [Bool.and_eq_true] at hst
    refine ⟨hst.1, ?_⟩
    rw [htoken hst.2, if_pos hcut]
    exact hnext
  simp only [if_neg hcut] at hok ⊢
  by_cases hlong : (src st.ip).toNat / 16 = RUN_MASK
  · simp only [if_pos hlong] at hok ⊢
    have hread : (readVariableLength src (st.ip + 1) (srcSize - RUN_MASK) true).2 ≤ srcSize →
        readVariableLength src' (st.ip + 1) (srcSize - RUN_MASK) true =
          readVariableLength src (st.ip + 1) (srcSize - RUN_MASK) true := readVariableLength_congr h
    generalize readVariableLength src (st.ip + 1) (srcSize - RUN_MASK) true = r at hok hread ⊢
    obtain ⟨addl, ip⟩ := r
    cases addl with
    | none =>
      simp only [decodeOk_outputError, Bool.and_eq_true, within_iff] at hok
      obtain ⟨⟨hst, hin⟩, hend⟩ := hok
      refine ⟨hst, ?_⟩
      rw [htoken (within_iff.mpr hin), if_neg hcut, if_pos hlong, hread hend]
    | some addl =>
      obtain ⟨hst, hnext⟩ := copyLiterals_source h hok
      simp only [Bool.and_eq_true, within_iff] at hst
      obtain ⟨⟨hst, hin⟩, hend⟩ := hst
      refine ⟨hst, ?_⟩
      rw [htoken (within_iff.mpr hin), if_neg hcut, if_pos hlong, hread hend]
      exact hnext
  · simp only [if_neg hlong] at hok ⊢
    obtain ⟨hst, hnext⟩ := copyLiterals_source h hok
    simp only [Bool.and_eq_true] at hst
    refine ⟨hst.1, ?_⟩
    rw [htoken hst.2, if_neg hcut, if_neg hlong]
    exact hnext

/-- **A call of the decoder** that ends with `ok`. -/
theorem decompressSafe_source (h : Agree src src' srcSize) {dst : Mem} {r : DResult}
    (hrun : decompressSafe src dst srcSize outputSize = some r) (hok : r.ok = true) :
    decompressSafe src' dst srcSize outputSize = some r := by
  rw [decompressSafe] at hrun ⊢
  by_cases h0 : outputSize = 0
  · rw [if_pos h0] at hrun ⊢
    rw [← hrun]
    by_cases h1 : srcSize = 1
    · rw [h 0 (by omega)]
    · rw [if_neg fun hc => h1 hc.1, if_neg fun hc => h1 hc.1]
  · rw [if_neg h0] at hrun ⊢
    by_cases hn : srcSize = 0
    · rw [if_pos hn] at hrun ⊢
      exact hrun
    · rw [if_neg hn] at hrun ⊢
      have hstep : ∀ st, DecodeOk (decompressStep src srcSize outputSize st) → st.ok = true ∧
          decompressStep src' srcSize outputSize st = decompressStep src srcSize outputSize st :=
        fun st => decompressStep_source h
      exact (run_congr hstep _ _ hrun hok).2

end Decode

/-! ## The driver -/

section Driver

variable {src src' : Mem} {slen : ℕ}

/-- **A call of the encoder** that ends with `ok`. -/
theorem fastReset_source {ctx : Stream} {dst : Mem} {capacity acceleration : ℕ} {r : CompressResult}
    (h : Agree src src' slen)
    (hrun : compressFastExtStateFastReset ctx src dst slen capacity acceleration = some r)
    (hok : r.ok = true) :
    compressFastExtStateFastReset ctx src' dst slen capacity acceleration = some r := by
  rw [fastReset_eq, compressGeneric] at hrun ⊢
  by_cases hmax : LZ4_MAX_INPUT_SIZE < slen
  · rw [if_pos hmax] at hrun ⊢
    exact hrun
  by_cases h0 : slen = 0
  · rw [if_neg hmax, if_pos h0] at hrun ⊢
    exact hrun
  rw [if_neg hmax, if_neg h0, compressGenericValidated] at hrun ⊢
  obtain ⟨e, he, rfl⟩ := Option.map_eq_some_iff.mp hrun
  exact Option.map_eq_some_iff.mpr ⟨e, encode_source h he hok, rfl⟩

/-- **Compression depends on the source bytes below `slen` only**: code, length, bytes and tfm. -/
theorem lz4UpgradeCompress_source {ctx : Lz4UpgradeCtx} (hctx : Reachable ctx) (h : Agree src src' slen)
    (dst : Mem) (dlen : ℕ) :
    lz4UpgradeCompress ctx src' slen dst dlen = lz4UpgradeCompress ctx src slen dst dlen := by
  obtain ⟨r, hr, hroom⟩ := fastReset_room hctx.inv src dst slen dlen 1
  rw [lz4UpgradeCompress, lz4UpgradeCompress, hr, fastReset_source h hr hroom.ok]

/-- **So does decompression**. -/
theorem lz4UpgradeDecompress_source (ctx : Lz4UpgradeCtx) (h : Agree src src' slen) (dst : Mem) (dlen : ℕ) :
    lz4UpgradeDecompress ctx src' slen dst dlen = lz4UpgradeDecompress ctx src slen dst dlen := by
  obtain ⟨r, hr, hpost⟩ := decompressSafe_inside src dst slen dlen
  rw [lz4UpgradeDecompress, lz4UpgradeDecompress, hr, decompressSafe_source h hr hpost.ok]

end Driver

end ZramUpgrade.Lz4
