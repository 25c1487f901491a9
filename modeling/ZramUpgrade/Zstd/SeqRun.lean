import ZramUpgrade.Zstd.SeqSection

/-!
# Zstd.SeqRun — the sequences of a frame

A frame is a run of blocks.  A block that does not gain is stored as it is, and the coder keeps the
tables it had; the decoder only sees the sections of the others.  From a fresh start the two stay in sync
over any run (`sections_roundTrip`).
-/

namespace ZramUpgrade.Zstd

open Lib

/-! ## The decoder of a section -/

/-- `ZSTD_decodeSeqHeaders` and `ZSTD_decompressSequences_body`, but for the execution of the
sequences. -/
def decodeSection (dctx : SeqDCtx) (src : Mem) (srcSize : ℕ) (wksp : SeqWorkspace) :
    Except ErrorCode (List Seq × SeqDCtx) :=
  match decodeSeqHeaders dctx src srcSize wksp with
  | .error e => .error e
  | .ok (ip, nbSeq, dctx) =>
    if nbSeq = 0 then .ok ([], dctx)
    else
      match initDStream (fromOffset src ip) (srcSize - ip) with
      | .error _ => .error .corruptionDetected
      | .ok bitD =>
        let (seqs, st) := decodeLoop dctx.tables (fromOffset src ip) nbSeq
          (initSeqState dctx.tables (fromOffset src ip) bitD dctx.rep)
        if st.dStream.endOfDStream then
          -- save reps for next block
          let rep := ⟨st.prevOffset.r0 % 2 ^ 32, st.prevOffset.r1 % 2 ^ 32, st.prevOffset.r2 % 2 ^ 32⟩
          .ok (seqs, { dctx with fseEntropy := true, rep })
        else .error .corruptionDetected

/-! ## Runs -/

/-- `ZSTD_reset_compressedBlockState`, of the tables. -/
def FseCTables.reset (t : FseCTables) : FseCTables :=
  { t with offcodeRepeatMode := .none, matchlengthRepeatMode := .none, litlengthRepeatMode := .none }

/-- `ZSTD_decompressBegin`, of what is kept for sequences. -/
def SeqDCtx.decompressBegin (dctx : SeqDCtx) : SeqDCtx :=
  { ll := ⟨dctx.ll.space, dctx.ll.space⟩, of := ⟨dctx.of.space, dctx.of.space⟩
    ml := ⟨dctx.ml.space, dctx.ml.space⟩, fseEntropy := false, rep := repStartValue }

/-- A block to code: what is stored of it, over what buffers, and whether coding it gains enough. -/
structure BlockInput where
  store : SeqStore
  dst : Mem
  dstCapacity : ℕ
  next : FseCTables
  strategy : ℕ
  count : ℕ → ℕ
  wksp : EntropyWorkspace
  gains : Bool

/-- A section that is part of the frame. -/
structure SeqSection where
  store : SeqStore
  size : ℕ
  out : Mem

/-- The sections of the blocks: `ZSTD_blockState_confirmRepcodesAndEntropyTables` takes the next tables
of a block that is compressed. -/
def compressBlocks : FseCTables → List BlockInput → List SeqSection
  | _, [] => []
  | prev, b :: bs =>
    match compressSequences b.dst b.dstCapacity b.store prev b.next b.strategy b.count b.wksp with
    | .error _ => compressBlocks prev bs
    | .ok (size, out, next) =>
      if size = 0 ∨ b.gains = false then compressBlocks prev bs
      else ⟨b.store, size, out⟩ :: compressBlocks next bs

/-- The sections of a frame, one after the other. -/
def decodeBlocks : SeqDCtx → List (Mem × ℕ) → SeqWorkspace → Except ErrorCode (List Seq × SeqDCtx)
  | dctx, [], _ => .ok ([], dctx)
  | dctx, (src, srcSize) :: rest, wksp =>
    match decodeSection dctx src srcSize wksp with
    | .error e => .error e
    | .ok (seqs, dctx) =>
      match decodeBlocks dctx rest wksp with
      | .error e => .error e
      | .ok (seqs', dctx) => .ok (seqs ++ seqs', dctx)

/-- The sequences of the sections. -/
def stored (sections : List SeqSection) : List Sequence := sections.flatMap fun x => x.store.toList

/-! ## What sequences stand for, one list after the other -/

section Resolve

variable {rep : Reps} {l l' : List Sequence}

theorem resolveAll_append (rep : Reps) (l l' : List Sequence) :
    resolveAll rep (l ++ l') = ((resolveAll rep l).1 ++ (resolveAll (resolveAll rep l).2 l').1,
      (resolveAll (resolveAll rep l).2 l').2) := by
  induction l generalizing rep with
  | nil => rfl
  | cons q l ih => rw [List.cons_append, resolveAll, ih, resolveAll, List.cons_append]

theorem resolves_append : Resolves rep (l ++ l') ↔ Resolves rep l ∧ Resolves (resolveAll rep l).2 l' := by
  induction l generalizing rep with
  | nil => exact ⟨fun h => ⟨trivial, h⟩, fun h => h.2⟩
  | cons q l ih =>
    rw [List.cons_append, Resolves, Resolves, ih, resolveAll, and_assoc]

theorem Reps.Valid.resolveAll (h : rep.Valid) (hlt : ∀ q ∈ l, q.offBase < 2 ^ 32)
    (hres : Resolves rep l) : (resolveAll rep l).2.Valid := by
  induction l generalizing rep with
  | nil => exact h
  | cons q l ih =>
    exact ih (h.update (hlt q List.mem_cons_self) hres.1) (fun q hq => hlt q (List.mem_cons_of_mem _ hq))
      hres.2

theorem SeqStore.Valid.offBase_lt_of_mem {s : SeqStore} (hs : s.Valid) :
    ∀ q ∈ s.toList, q.offBase < 2 ^ 32 := by
  intro q hq
  obtain ⟨n, hn, rfl⟩ := List.mem_map.mp hq
  exact (hs.offBase_lt n (List.mem_range.mp hn)).2

end Resolve

/-! ## One section -/

section Run

variable {s : SeqStore} {prev next next' : FseCTables} {dctx : SeqDCtx} {dst src out : Mem}
  {strategy dstCapacity size : ℕ} {count : ℕ → ℕ} {wksp : EntropyWorkspace}

/-- **A section** that is written is decoded for what it stands for, and leaves both sides in sync. -/
theorem decodeSection_spec (hs : s.Valid) (hlt : s.nbSeq < longNbSeq + 2 ^ 16) (hsync : InSync prev dctx)
    (hwksp : buildCTableWkspSize ≤ wksp.size)
    (hrun : compressSequences dst dstCapacity s prev next strategy count wksp = .ok (size, out, next'))
    (hsize : size ≠ 0) (hsrc : Agree src out size) (hrep : dctx.rep.Valid)
    (hres : Resolves dctx.rep s.toList) (w : SeqWorkspace) :
    ∃ dctx', decodeSection dctx src size w = .ok ((resolveAll dctx.rep s.toList).1, dctx') ∧
      InSync next' dctx' ∧ dctx'.rep = (resolveAll dctx.rep s.toList).2 := by
  rcases compressSequences_decode dst hs hlt hsync hwksp with he | ⟨_, _, _, hok, -, hdec⟩
  · rw [hrun] at he
    cases he
  rw [hrun] at hok
  obtain ⟨rfl, hpair⟩ := Prod.mk.inj (Except.ok.inj hok)
  obtain ⟨rfl, rfl⟩ := Prod.mk.inj hpair
  obtain ⟨ip, dctx', hhead, -, hrep', hnone, hsome⟩ := hdec hsize src hsrc hrep hres w
  unfold decodeSection
  rw [hhead]
  dsimp only
  by_cases h0 : s.nbSeq = 0
  · have hnil : s.toList = [] := by
      rw [SeqStore.toList, h0]
      rfl
    rw [if_pos h0, hnil]
    exact ⟨dctx', rfl, (hnone h0).2, hrep'⟩
  · obtain ⟨hsync', ⟨bitD, hopen, hseqs, hend, hlast⟩⟩ := hsome h0
    have hvalid := hrep.resolveAll hs.offBase_lt_of_mem hres
    obtain ⟨l0, l1, l2⟩ := hvalid.lt
    rw [if_neg h0, hopen]
    dsimp only
    rw [if_pos hend, hseqs, hlast, Nat.mod_eq_of_lt l0, Nat.mod_eq_of_lt l1, Nat.mod_eq_of_lt l2]
    exact ⟨_, rfl, ⟨hsync'.ll, hsync'.of, hsync'.ml, hsync'.flag⟩, rfl⟩

end Run

/-! ## The run -/

/-- A block the coder may be given; `ZSTD_entropyCompressSeqStore_internal` asserts the workspace. -/
structure BlockInput.Valid (b : BlockInput) : Prop where
  store : b.store.Valid
  nbSeq_lt : b.store.nbSeq < longNbSeq + 2 ^ 16
  wksp : hufWorkspaceSize ≤ b.wksp.size

/-- It has room for what `ZSTD_buildCTable` needs. -/
theorem BlockInput.Valid.buildCTable_le {b : BlockInput} (h : b.Valid) :
    buildCTableWkspSize ≤ b.wksp.size :=
  le_trans (by decide) h.wksp

/-- The decoder is given the bytes of the sections, whatever follows them. -/
def Delivered (sections : List SeqSection) (inputs : List (Mem × ℕ)) : Prop :=
  List.Forall₂ (fun (x : SeqSection) (i : Mem × ℕ) => i.2 = x.size ∧ Agree i.1 x.out x.size) sections
    inputs

/-- A fresh coder has no table to repeat. -/
theorem inSync_reset (t : FseCTables) (dctx : SeqDCtx) : InSync t.reset dctx := by
  refine ⟨fun h => absurd rfl h, fun h => absurd rfl h, fun h => absurd rfl h, ?_⟩
  rintro (h | h | h) <;> exact absurd rfl h

/-- The run from any state in which the two are in sync. -/
theorem decodeBlocks_spec (w : SeqWorkspace) (bs : List BlockInput) :
    ∀ (prev : FseCTables) (dctx : SeqDCtx) (inputs : List (Mem × ℕ)), (∀ b ∈ bs, b.Valid) →
      InSync prev dctx → dctx.rep.Valid → Resolves dctx.rep (stored (compressBlocks prev bs)) →
      Delivered (compressBlocks prev bs) inputs →
      ∃ dctx', decodeBlocks dctx inputs w =
          .ok ((resolveAll dctx.rep (stored (compressBlocks prev bs))).1, dctx') ∧
        dctx'.rep = (resolveAll dctx.rep (stored (compressBlocks prev bs))).2 := by
  induction bs with
  | nil =>
    intro prev dctx inputs _ _ _ _ hin
    cases hin
    exact ⟨dctx, rfl, rfl⟩
  | cons b bs ih =>
    intro prev dctx inputs hall hsync hrep hres hin
    obtain ⟨hb, hbs⟩ := List.forall_mem_cons.mp hall
    rw [compressBlocks] at hres hin ⊢
    cases hrun : compressSequences b.dst b.dstCapacity b.store prev b.next b.strategy b.count b.wksp with
    | error e =>
      rw [hrun] at hres hin
      exact ih prev dctx inputs hbs hsync hrep hres hin
    | ok r =>
      obtain ⟨size, out, next⟩ := r
      rw [hrun] at hres hin
      dsimp only at hres hin ⊢
      by_cases hskip : size = 0 ∨ b.gains = false
      · -- the block is stored as it is, and both sides keep what they had
        rw [if_pos hskip] at hres hin ⊢
        exact ih prev dctx inputs hbs hsync hrep hres hin
      · rw [if_neg hskip] at hres hin ⊢
        cases hin with
        | @cons _ input _ rest hhead hrest =>
          obtain ⟨src, srcSize⟩ := input
          obtain ⟨rfl, hsrc⟩ := hhead
          have hcons : stored (⟨b.store, srcSize, out⟩ :: compressBlocks next bs) =
              b.store.toList ++ stored (compressBlocks next bs) := List.flatMap_cons
          rw [hcons, resolves_append] at hres
          obtain ⟨dctx1, hdec, hsync1, hrep1⟩ := decodeSection_spec hb.store hb.nbSeq_lt hsync
            hb.buildCTable_le hrun
            (fun h0 => hskip (.inl h0)) hsrc hrep hres.1 w
          have hvalid := hrep.resolveAll hb.store.offBase_lt_of_mem hres.1
          rw [← hrep1] at hvalid hres
          obtain ⟨dctx2, hdec2, hrep2⟩ := ih next dctx1 rest hbs hsync1 hvalid hres.2 hrest
          refine ⟨dctx2, ?_, ?_⟩
          · rw [decodeBlocks, hdec]
            dsimp only
            rw [hdec2, hcons, resolveAll_append, hrep1]
          · rw [hrep2, hcons, resolveAll_append, hrep1]

/-- **Coder and decoder stay in sync over every frame.**  Whatever blocks there are, and whichever of
them are stored as they are, the sections that are written are decoded for the sequences that were
stored, with the offsets their repeat codes stand for, by a decoder whose tables and repeat offsets are
only those it has seen; no repeat code may stand for 0. -/
theorem sections_roundTrip (t : FseCTables) (dctx : SeqDCtx) (bs : List BlockInput)
    (hbs : ∀ b ∈ bs, b.Valid) (hres : Resolves repStartValue (stored (compressBlocks t.reset bs)))
    (inputs : List (Mem × ℕ)) (hin : Delivered (compressBlocks t.reset bs) inputs) (w : SeqWorkspace) :
    ∃ dctx', decodeBlocks dctx.decompressBegin inputs w =
        .ok ((resolveAll repStartValue (stored (compressBlocks t.reset bs))).1, dctx') ∧
      dctx'.rep = (resolveAll repStartValue (stored (compressBlocks t.reset bs))).2 := by
  have hstart : repStartValue.Valid := ⟨by decide, by decide⟩
  exact decodeBlocks_spec w bs t.reset dctx.decompressBegin inputs hbs (inSync_reset t _) hstart hres hin

theorem delivered_self (sections : List SeqSection) :
    Delivered sections (sections.map fun x => (x.out, x.size)) := by
  induction sections with
  | nil => exact .nil
  | cons x xs ih => exact .cons ⟨rfl, Agree.refl _ _⟩ ih

/-- Tables that code nothing, to start from. -/
def noTables : FseCTables :=
  let ct : CTable := ⟨0, 0, fun _ => 0, fun _ => ⟨0, 0⟩⟩
  ⟨ct, ct, ct, .none, .none, .none⟩

/-- A block of five literals and a match of ten bytes, four back. -/
def oneMatch : BlockInput where
  store := (SeqStore.reset ⟨fun _ => ⟨0, 0, 0⟩, 0, fun _ => 0, 0, .none, 0⟩).storeSeqOnly 5 7 10
  dst := fun _ => 0
  dstCapacity := 64
  next := noTables
  strategy := 2
  count := fun _ => 0
  wksp := ⟨fun _ => 0, fun _ => 0, fun _ => 0, fun _ => 0, 8704⟩
  gains := true

theorem oneMatch_valid : oneMatch.Valid where
  store := by
    obtain ⟨hvalid, hnil⟩ := SeqStore.reset_valid ⟨fun _ => ⟨0, 0, 0⟩, 0, fun _ => 0, 0, .none, 0⟩
    refine (hvalid.storeSeqOnly (by decide) (by decide) (by decide) ?_).1
    rw [hnil]
    decide
  nbSeq_lt := by decide
  wksp := by decide

/-- A decoder that has read nothing. -/
def freshDCtx : SeqDCtx :=
  let dt : SeqTable := ⟨0, false, fun _ => ⟨0, 0, 0, 0⟩⟩
  ⟨⟨dt, dt⟩, ⟨dt, dt⟩, ⟨dt, dt⟩, true, ⟨9, 9, 9⟩⟩

/-- A block of four sequences; the second offset is too far for the default table, and the last is a
repeat code. -/
def fourMatches (gains : Bool) : BlockInput :=
  { oneMatch with
    store := ((oneMatch.store.storeSeqOnly 3 (2 ^ 29 + 3) 4).storeSeqOnly 0 7 10).storeSeqOnly 2 1 6
    strategy := 4
    gains }

theorem fourMatches_valid (gains : Bool) : (fourMatches gains).Valid where
  store := by
    have h2 : (oneMatch.store.storeSeqOnly 3 (2 ^ 29 + 3) 4).Valid :=
      (oneMatch_valid.store.storeSeqOnly (by decide) (by decide) (by decide) (by decide +kernel)).1
    have h3 : ((oneMatch.store.storeSeqOnly 3 (2 ^ 29 + 3) 4).storeSeqOnly 0 7 10).Valid :=
      (h2.storeSeqOnly (by decide) (by decide) (by decide) (by decide +kernel)).1
    exact (h3.storeSeqOnly (by decide) (by decide) (by decide) (by decide +kernel)).1
  nbSeq_lt := show 4 < longNbSeq + 2 ^ 16 by decide
  wksp := oneMatch_valid.wksp

/-- Three blocks: one with an offset table of its own, one stored as it is, one that repeats the
table. -/
theorem sections_roundTrip_three :
    ∃ dctx', decodeBlocks freshDCtx.decompressBegin
        ((compressBlocks noTables.reset [fourMatches true, fourMatches false, fourMatches true]).map
          fun x => (x.out, x.size)) ⟨fun _ => 0, fun _ => 0⟩ =
      .ok ([⟨5, 10, 4⟩, ⟨3, 4, 2 ^ 29⟩, ⟨0, 10, 4⟩, ⟨2, 6, 4⟩,
        ⟨5, 10, 4⟩, ⟨3, 4, 2 ^ 29⟩, ⟨0, 10, 4⟩, ⟨2, 6, 4⟩], dctx') ∧ dctx'.rep = ⟨4, 2 ^ 29, 4⟩ := by
  have hstored : stored (compressBlocks noTables.reset
      [fourMatches true, fourMatches false, fourMatches true]) =
      [⟨5, 7, 10⟩, ⟨3, 2 ^ 29 + 3, 4⟩, ⟨0, 7, 10⟩, ⟨2, 1, 6⟩,
        ⟨5, 7, 10⟩, ⟨3, 2 ^ 29 + 3, 4⟩, ⟨0, 7, 10⟩, ⟨2, 1, 6⟩] := by
    decide +kernel
  have hvalid : ∀ b ∈ [fourMatches true, fourMatches false, fourMatches true], b.Valid := by
    intro b hb
    simp only [List.mem_cons, List.not_mem_nil, or_false] at hb
    rcases hb with rfl | rfl | rfl
    · exact fourMatches_valid true
    · exact fourMatches_valid false
    · exact fourMatches_valid true
  have hres : Resolves repStartValue (stored (compressBlocks noTables.reset
      [fourMatches true, fourMatches false, fourMatches true])) := by
    rw [hstored]
    refine ⟨?_, ?_, ?_, ?_, ?_, ?_, ?_, ?_, trivial⟩ <;> decide
  obtain ⟨dctx', hrun, hrep⟩ := sections_roundTrip noTables freshDCtx
    [fourMatches true, fourMatches false, fourMatches true] hvalid hres _ (delivered_self _)
    ⟨fun _ => 0, fun _ => 0⟩
  rw [hstored] at hrun hrep
  exact ⟨dctx', hrun, hrep⟩

end ZramUpgrade.Zstd
