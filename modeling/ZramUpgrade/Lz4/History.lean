import ZramUpgrade.Lz4.RoundTrip

/-!
# Lz4.History — a used tfm compresses like a fresh one

Two runs of the match finder on one input: from a stale `byU16` table at `startIndex`, and from an
all-zero table at `0` (`Call.fresh`).  `TableRel` couples the tables: an entry is an index of this
call in both, or stale in one and the initial zero in the other.  A stale entry is skipped through
`dictSmall`; its partner points at position `0`, whose own bucket is never stale, so the bytes there
cannot compare equal.  The two runs stay in lock step (`encodeStep_rel`) and write the same output.
-/

namespace ZramUpgrade.Lz4

open Lib

/-- The same call on a cleared stream. -/
def Call.fresh (c : Call) : Call :=
  { c with dictIssue := .noDictIssue, startIndex := 0, prefixIdxLimit := 0 }

/-- A call that goes on with a stale `byU16` table. -/
structure Call.Stale (c : Call) : Prop where
  tableType : c.tableType = .byU16
  dictIssue : c.dictIssue = .dictSmall
  limit : c.prefixIdxLimit = c.startIndex
  room : c.startIndex + c.inputSize < 2 ^ 16

section Coupling

variable (c : Call)

/-- Entry by entry: an index of this call, or stale against the initial zero.  The bucket of the
first position is never stale. -/
def TableRel (t t₀ : HashTable) : Prop :=
  ∀ h, getIndexOnHash h t c.tableType = c.startIndex + getIndexOnHash h t₀ c.tableType ∨
    (getIndexOnHash h t c.tableType < c.startIndex ∧ getIndexOnHash h t₀ c.tableType = 0 ∧
      h ≠ c.hashAt 0)

/-- The two runs are at the same point with the same output; only the tables differ. -/
structure StateRel (st st₀ : EState) : Prop where
  point : st₀.point = st.point
  ip : st₀.ip = st.ip
  anchor : st₀.anchor = st.anchor
  op : st₀.op = st.op
  dst : st₀.dst = st.dst
  hash : ∀ f step nb fh, st.point = .search f step nb fh → fh = c.hashAt f
  table : st.point = .lastLiterals ∨ TableRel c st.hashTable st₀.hashTable

/-- The same return value and output. -/
def SameOutput (r r₀ : EResult) : Prop := r.ret = r₀.ret ∧ r.dst = r₀.dst

end Coupling

section Steps

variable {c : Call} {t t₀ : HashTable} {st : EState} {ok₀ : Bool}

theorem fresh_source (c : Call) : c.fresh.source = c.source := rfl
theorem fresh_inputSize (c : Call) : c.fresh.inputSize = c.inputSize := rfl
theorem fresh_tableType (c : Call) : c.fresh.tableType = c.tableType := rfl
theorem fresh_startIndex (c : Call) : c.fresh.startIndex = 0 := rfl
theorem fresh_hashAt (c : Call) (p : ℕ) : c.fresh.hashAt p = c.hashAt p := rfl

theorem fresh_overflows (c : Call) (n : ℕ) : c.fresh.overflows n ↔ c.overflows n := Iff.rfl
theorem fresh_pastMflimit (c : Call) (p : ℕ) : c.fresh.pastMflimit p ↔ c.pastMflimit p := Iff.rfl

/-- A fresh call never skips a candidate as stale. -/
theorem fresh_valid (c : Call) (i : ℕ) :
    ¬ (c.fresh.dictIssue = .dictSmall ∧ i < c.fresh.prefixIdxLimit) :=
  fun h => absurd h.2 (Nat.not_lt_zero i)

theorem catchUpLoop_fresh (c : Call) (anchor m : ℕ) : ∀ ip,
    catchUpLoop c.fresh anchor ip m = catchUpLoop c anchor ip m := by
  induction m with
  | zero => intro ip; rfl
  | succ m ih =>
    intro ip
    rw [catchUpLoop, catchUpLoop, ih]
    rfl

theorem catchUp_fresh (c : Call) (anchor ip m : ℕ) :
    catchUp c.fresh anchor ip m = catchUp c anchor ip m := by
  rw [catchUp, catchUp, catchUpLoop_fresh]
  rfl

/-- Entering a position of this call keeps the coupling. -/
theorem TableRel.put (hc : c.Stale) (h : TableRel c t t₀) (pos hash : ℕ) (hpos : pos < c.inputSize) :
    TableRel c (putIndexOnHash (c.startIndex + pos) hash t c.tableType)
      (putIndexOnHash pos hash t₀ c.tableType) := by
  intro i
  have hroom := hc.room
  have hne : c.tableType ≠ .clearedTable := by rw [hc.tableType]; decide
  have hlim : indexLimit c.tableType = 2 ^ 16 := by rw [hc.tableType]; rfl
  rw [getIndexOnHash_put hne (by omega), getIndexOnHash_put hne (by omega)]
  by_cases hi : i = hash
  · rw [if_pos hi, if_pos hi]
    exact .inl rfl
  · rw [if_neg hi, if_neg hi]
    exact h i

/-- A position whose bytes are those of position `0` has its bucket. -/
theorem hashAt_eq (hc : c.Stale) {p q : ℕ} (h : read32 c.source p = read32 c.source q) :
    c.hashAt p = c.hashAt q := by
  simp only [Call.hashAt, hashPosition, hc.tableType, h, ne_eq, not_true_eq_false, if_false]

/-- Looking up a position: the same candidate, or a skipped one against one that does not match. -/
theorem TableRel.lookup (hc : c.Stale) (h : TableRel c t t₀) (p : ℕ) :
    (c.startIndex ≤ getIndexOnHash (c.hashAt p) t c.tableType ∧
      c.matchOf (getIndexOnHash (c.hashAt p) t c.tableType) =
        c.fresh.matchOf (getIndexOnHash (c.hashAt p) t₀ c.tableType)) ∨
    (getIndexOnHash (c.hashAt p) t c.tableType < c.startIndex ∧
      read32 c.source (c.fresh.matchOf (getIndexOnHash (c.hashAt p) t₀ c.tableType)) ≠
        read32 c.source p) := by
  rcases h (c.hashAt p) with he | ⟨hlt, h0, hne⟩
  · refine .inl ⟨by omega, ?_⟩
    rw [Call.matchOf, he, Nat.add_sub_cancel_left]
    rfl
  · refine .inr ⟨hlt, fun hr => hne ?_⟩
    rw [h0] at hr
    exact (hashAt_eq hc hr).symm

theorem encodeLiterals_rel (hT : TableRel c st.hashTable t₀) (m : ℕ) :
    RelStep (StateRel c) SameOutput (encodeLiterals c st m)
      (encodeLiterals c.fresh { st with hashTable := t₀, ok := ok₀ } m) := by
  simp only [encodeLiterals, catchUp_fresh, fresh_overflows, fresh_source]
  split
  · exact .done ⟨rfl, rfl⟩
  · exact .next ⟨rfl, rfl, rfl, rfl, rfl, (fun _ _ _ _ h => by cases h), .inr hT⟩

theorem searchStep_rel (hc : c.Stale) {f step nb : ℕ} (hT : TableRel c st.hashTable t₀) :
    RelStep (StateRel c) SameOutput (searchStep c st f step nb (c.hashAt f))
      (searchStep c.fresh { st with hashTable := t₀, ok := ok₀ } f step nb (c.hashAt f)) := by
  have hnear : ∀ i j, ¬ (c.tableType ≠ .byU16 ∧ i + LZ4_DISTANCE_MAX < j) :=
    fun i j h => h.1 hc.tableType
  simp only [searchStep, MFLIMIT, fresh_valid, fresh_inputSize, fresh_source, fresh_tableType,
    fresh_startIndex, fresh_hashAt, hnear, if_false, Nat.zero_add]
  split
  · exact .next ⟨rfl, rfl, rfl, rfl, rfl, (fun _ _ _ _ h => by cases h), .inl rfl⟩
  · next hend =>
    have hput := hT.put hc f (c.hashAt f) (by omega)
    rcases hT.lookup hc f with ⟨hge, hm⟩ | ⟨hlt, hne⟩
    · -- an index of this call: the same candidate in both runs
      have hvalid : ¬ (c.dictIssue = .dictSmall ∧
          getIndexOnHash (c.hashAt f) st.hashTable c.tableType < c.prefixIdxLimit) := by
        rw [hc.limit]
        omega
      rw [if_neg hvalid, hm]
      split
      · exact encodeLiterals_rel hput _
      · exact .next ⟨rfl, rfl, rfl, rfl, rfl, (fun _ _ _ _ h => by cases h; rfl), .inr hput⟩
    · -- a stale entry: skipped in one run, different bytes in the other
      have hskip : c.dictIssue = .dictSmall ∧
          getIndexOnHash (c.hashAt f) st.hashTable c.tableType < c.prefixIdxLimit :=
        ⟨hc.dictIssue, by rw [hc.limit]; exact hlt⟩
      rw [if_pos hskip, if_neg hne]
      exact .next ⟨rfl, rfl, rfl, rfl, rfl, (fun _ _ _ _ h => by cases h; rfl), .inr hput⟩

theorem afterMatch_rel (hc : c.Stale) (hT : TableRel c st.hashTable t₀) :
    RelStep (StateRel c) SameOutput (afterMatch c st)
      (afterMatch c.fresh { st with hashTable := t₀, ok := ok₀ }) := by
  simp only [afterMatch, fresh_pastMflimit, fresh_source, fresh_tableType, fresh_startIndex, fresh_hashAt,
    Nat.zero_add]
  split
  · exact .next ⟨rfl, rfl, rfl, rfl, rfl, (fun _ _ _ _ h => by cases h), .inl rfl⟩
  · next hgo =>
    simp only [Call.pastMflimit, MFLIMIT] at hgo
    have hput := hT.put hc (st.ip - 2) (c.hashAt (st.ip - 2)) (by omega)
    have hput2 := hput.put hc st.ip (c.hashAt st.ip) (by omega)
    have hfresh : ∀ i j, (c.fresh.dictIssue = .dictSmall → c.fresh.prefixIdxLimit ≤ i) ∧
        (c.tableType = .byU16 ∨ st.ip ≤ j) := fun i _ => ⟨fun _ => Nat.zero_le i, .inl hc.tableType⟩
    rcases hput.lookup hc st.ip with ⟨hge, hm⟩ | ⟨hlt, hne⟩
    · have hreach : ∀ j, (c.dictIssue = .dictSmall → c.prefixIdxLimit ≤ getIndexOnHash (c.hashAt st.ip)
          (putIndexOnHash (c.startIndex + (st.ip - 2)) (c.hashAt (st.ip - 2)) st.hashTable c.tableType)
          c.tableType) ∧ (c.tableType = .byU16 ∨ c.startIndex + st.ip ≤ j) :=
        fun j => ⟨fun _ => by rw [hc.limit]; exact hge, .inl hc.tableType⟩
      rw [hm]
      by_cases he : read32 c.source (c.fresh.matchOf (getIndexOnHash (c.hashAt st.ip)
          (putIndexOnHash (st.ip - 2) (c.hashAt (st.ip - 2)) t₀ c.tableType) c.tableType)) =
          read32 c.source st.ip
      · rw [if_pos ⟨hreach _, he⟩, if_pos ⟨hfresh _ _, he⟩]
        exact .next ⟨rfl, rfl, rfl, rfl, rfl, (fun _ _ _ _ h => by cases h), .inr hput2⟩
      · rw [if_neg fun h => he h.2, if_neg fun h => he h.2]
        exact .next ⟨rfl, rfl, rfl, rfl, rfl, (fun _ _ _ _ h => by cases h; rfl), .inr hput2⟩
    · rw [if_neg fun h => absurd (h.1.1 hc.dictIssue) (by rw [hc.limit]; omega),
        if_neg fun h => hne h.2]
      exact .next ⟨rfl, rfl, rfl, rfl, rfl, (fun _ _ _ _ h => by cases h; rfl), .inr hput2⟩

theorem nextMatchStep_rel (hc : c.Stale) (hT : TableRel c st.hashTable t₀) (m token : ℕ) :
    RelStep (StateRel c) SameOutput (nextMatchStep c st m token)
      (nextMatchStep c.fresh { st with hashTable := t₀, ok := ok₀ } m token) := by
  simp only [nextMatchStep, fresh_source, fresh_inputSize, fresh_overflows]
  split
  · exact .done ⟨rfl, rfl⟩
  · exact afterMatch_rel hc hT

theorem lastLiteralsStep_rel :
    RelStep (StateRel c) SameOutput (lastLiteralsStep c st)
      (lastLiteralsStep c.fresh { st with hashTable := t₀, ok := ok₀ }) := by
  simp only [lastLiteralsStep, fresh_source, fresh_inputSize, fresh_overflows]
  split
  · exact .done ⟨rfl, rfl⟩
  · exact .done ⟨rfl, rfl⟩

/-- **Lock step**: paired states step to paired states or end with the same output. -/
theorem encodeStep_rel (hc : c.Stale) {st₀ : EState} (h : StateRel c st st₀) :
    RelStep (StateRel c) SameOutput (encodeStep c st) (encodeStep c.fresh st₀) := by
  obtain ⟨point₀, ip₀, anchor₀, op₀, t₀, dst₀, ok₀⟩ := st₀
  obtain ⟨rfl, rfl, rfl, rfl, rfl, hash, table⟩ := h
  simp only [encodeStep]
  cases hpt : st.point with
  | search f step nb fh =>
    obtain rfl := hash f step nb fh hpt
    exact searchStep_rel hc (table.resolve_left (by rw [hpt]; exact fun h => by cases h))
  | nextMatch m token =>
    exact nextMatchStep_rel hc (table.resolve_left (by rw [hpt]; exact fun h => by cases h)) m token
  | lastLiterals => exact lastLiteralsStep_rel

/-- The first position is entered in both tables, which couples a stale table with the zero one. -/
theorem encodeStart_rel (hc : c.Stale) (ht : ∀ h, getIndexOnHash h t c.tableType < c.startIndex)
    (dst : Mem) :
    StateRel c (encodeStart c t dst) (encodeStart c.fresh (fun _ => 0) dst) := by
  by_cases hlen : c.inputSize < LZ4_minLength
  · have hlen₀ : c.fresh.inputSize < LZ4_minLength := hlen
    simp only [encodeStart, if_pos hlen, if_pos hlen₀]
    exact ⟨rfl, rfl, rfl, rfl, rfl, (fun _ _ _ _ h => by cases h), .inl rfl⟩
  · have hlen₀ : ¬ c.fresh.inputSize < LZ4_minLength := hlen
    simp only [encodeStart, if_neg hlen, if_neg hlen₀]
    simp only [LZ4_minLength, MFLIMIT] at hlen
    refine ⟨rfl, rfl, rfl, rfl, rfl, (fun _ _ _ _ h => by cases h; rfl), .inr fun i => ?_⟩
    have hroom := hc.room
    have hne : c.tableType ≠ .clearedTable := by rw [hc.tableType]; decide
    have hlim : indexLimit c.tableType = 2 ^ 16 := by rw [hc.tableType]; rfl
    simp only [fresh_hashAt, fresh_tableType, fresh_startIndex]
    rw [getIndexOnHash_put hne (by omega), getIndexOnHash_put hne (by omega)]
    by_cases hi : i = c.hashAt 0
    · rw [if_pos hi, if_pos hi]
      exact .inl rfl
    · rw [if_neg hi, if_neg hi]
      exact .inr ⟨ht i, getIndexOnHash_zero i _, hi⟩

/-- **Whole runs** from a stale and from a zero table end alike. -/
theorem encode_rel (hc : c.Stale) (ht : ∀ h, getIndexOnHash h t c.tableType < c.startIndex)
    (dst : Mem) :
    Option.Rel SameOutput (run (encodeStep c) (encodeFuel c) (encodeStart c t dst))
      (run (encodeStep c.fresh) (encodeFuel c) (encodeStart c.fresh (fun _ => 0) dst)) :=
  run_rel (fun _ _ h => encodeStep_rel hc h) _ _ _ (encodeStart_rel hc ht dst)

end Steps

/-! ## The driver -/

section Driver

variable {ctx : Stream} {n : ℕ}

/-- A cleared stream is the initial one. -/
theorem eq_initStream (h : Cleared ctx) (ht : ctx.tableType = .clearedTable) (hd : ctx.dictSize = 0) :
    ctx = initStream := by
  obtain ⟨hT, hO⟩ := h
  cases ctx
  simp only at hT hO ht hd
  rw [hT, hO, ht, hd, initStream]

theorem prepareTable_init (n : ℕ) (tt : TableType) : prepareTable initStream n tt = initStream := by
  obtain ⟨hc, ht⟩ := prepareTable_cleared initStream n tt (.inr ⟨rfl, rfl, rfl⟩)
  exact eq_initStream hc ht rfl

theorem callOf_stale (h16 : tableTypeOf n = .byU16) (hs : StaleTable ctx n) (hd : ctx.dictSize = 0)
    (src : Mem) (capacity a : ℕ) : (callOf ctx src n capacity a).Stale := by
  have hpos := hs.offset_pos
  have hroom := hs.room
  refine ⟨h16, ?_, ?_, ?_⟩
  · show dictIssueOf ctx n = .dictSmall
    rw [dictIssueOf, if_pos ⟨h16, by omega⟩]
  · show ctx.currentOffset - ctx.dictSize = ctx.currentOffset
    rw [hd, Nat.sub_zero]
  · show ctx.currentOffset + n < 2 ^ 16
    omega

/-- On a cleared stream the same arguments make the fresh call. -/
theorem callOf_fresh (ctx : Stream) (src : Mem) (n capacity a : ℕ) :
    (callOf ctx src n capacity a).fresh = callOf initStream src n capacity a := by
  have hd : dictIssueOf initStream n = .noDictIssue := by
    rw [dictIssueOf, if_neg (by simp [initStream])]
  simp only [Call.fresh, callOf, hd]
  rfl

/-- The return value and output of a compression call. -/
def outputOf (r : CompressResult) : ℕ × Mem := (r.ret, r.dst)

/-- **The fast reset agrees with a zeroed state.** -/
theorem fastReset_history (h : StreamInv ctx) (src dst : Mem) (n capacity acceleration : ℕ) :
    (compressFastExtStateFastReset ctx src dst n capacity acceleration).map outputOf =
      (compressFastExtStateFastReset initStream src dst n capacity acceleration).map outputOf := by
  rw [fastReset_eq, fastReset_eq, prepareTable_init]
  rcases prepareTable_spec (n := n) h with ⟨hc, ht⟩ | ⟨h16, hs, _⟩
  · rw [eq_initStream hc ht rfl]
  · set ctx' := prepareTable ctx n (tableTypeOf n) with hctx'
    rw [compressGeneric, compressGeneric]
    split
    · rfl
    · split
      · split <;> rfl
      · have hstale := callOf_stale h16 hs (prepareTable_dictSize ctx n _) src capacity
          (clampAcceleration acceleration)
        have hrel := encode_rel hstale (t := ctx'.hashTable)
          (fun i => by show getIndexOnHash i _ (tableTypeOf n) < _; rw [h16]; exact hs.below i) dst
        rw [callOf_fresh] at hrel
        simp only [compressGenericValidated, Option.map_map]
        exact map_eq_of_rel (fun r r₀ he => Prod.ext he.1 he.2) hrel

end Driver

/-- **History independence.**  On a used tfm a compression call returns the code, length and bytes
that it returns on a freshly initialised one. -/
theorem lz4_historyFree {ctx fresh : Lz4UpgradeCtx} {vmalloc : Bool} (h : Reachable ctx)
    (hf : lz4UpgradeInit vmalloc = .ok fresh) (src dst : Mem) (slen dlen : ℕ) :
    ∃ r r₀, lz4UpgradeCompress ctx src slen dst dlen = some r ∧
      lz4UpgradeCompress fresh src slen dst dlen = some r₀ ∧
      r.code = r₀.code ∧ r.dlen = r₀.dlen ∧ r.dst = r₀.dst := by
  have hfresh : fresh = ⟨initStream⟩ := by
    rw [lz4UpgradeInit] at hf
    split at hf
    · cases hf
      rfl
    · cases hf
  subst hfresh
  rw [lz4UpgradeCompress, lz4UpgradeCompress]
  split
  · exact ⟨_, _, rfl, rfl, rfl, rfl, rfl⟩
  · obtain ⟨r, hr, _⟩ := fastReset_spec h.inv src dst slen dlen 1
    obtain ⟨r₀, hr₀, _⟩ := fastReset_spec initStream_inv src dst slen dlen 1
    have heq := fastReset_history h.inv src dst slen dlen 1
    rw [hr, hr₀, Option.map_some, Option.map_some, Option.some_inj, outputOf, outputOf,
      Prod.mk.injEq] at heq
    obtain ⟨hret, hdst⟩ := heq
    rw [hr, hr₀]
    simp only [Option.bind_eq_bind, Option.bind_some, hret, hdst]
    split
    · exact ⟨_, _, rfl, rfl, rfl, rfl, rfl⟩
    · exact ⟨_, _, rfl, rfl, rfl, rfl, rfl⟩

/-- After a call that failed halfway and left its entries, the next call is that of a new tfm. -/
theorem lz4_historyFree_reused :
    ∃ r₁ r r₀, lz4UpgradeCompress ⟨initStream⟩ (fun _ => 7) 20 (fun _ => 0) 4 = some r₁ ∧
      r₁.code = -EINVAL ∧ lz4UpgradeCompress r₁.ctx (fun _ => 7) 20 (fun _ => 0) 64 = some r ∧
      lz4UpgradeCompress ⟨initStream⟩ (fun _ => 7) 20 (fun _ => 0) 64 = some r₀ ∧
      r.code = r₀.code ∧ r.dlen = r₀.dlen ∧ r.dst = r₀.dst := by
  have hfresh : lz4UpgradeInit true = .ok ⟨initStream⟩ := rfl
  have hinit : Reachable ⟨initStream⟩ := .init hfresh
  obtain ⟨r₁, hr₁, _⟩ := lz4UpgradeCompress_spec hinit.inv (fun _ => 7) (fun _ => 0) 20 4
  obtain ⟨r, r₀, h⟩ := lz4_historyFree (hinit.compress hr₁) hfresh (fun _ => 7)
    (fun _ => 0) 20 64
  have hcode : (lz4UpgradeCompress ⟨initStream⟩ (fun _ => 7) 20 (fun _ => 0) 4).map (·.code) =
      some (-EINVAL) := by decide +kernel
  rw [hr₁, Option.map_some, Option.some_inj] at hcode
  exact ⟨r₁, r, r₀, hr₁, hcode, h⟩

end ZramUpgrade.Lz4
