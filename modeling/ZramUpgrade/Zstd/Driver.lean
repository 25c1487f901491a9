import ZramUpgrade.Zstd.Context

/-!
# Zstd.Driver — the `zstd-new-generic` crypto driver (`src/zstd-upgrade-driver.c`)

A tfm holds one compression and one decompression context, both made through `zstd_upgrade_alloc`
and `zstd_upgrade_free`.  The memory ledger of a whole session (init, any calls, exit) balances
whatever requests are refused; but the workspace of the compression context is not part of init.
-/

namespace ZramUpgrade.Zstd

open Lib

abbrev EINVAL : ℤ := 22
abbrev ENOMEM : ℤ := 12
abbrev UINT_MAX : ℕ := 2 ^ 32 - 1

/-- `struct zstd_upgrade_ctx` after a successful init. -/
structure ZstdUpgradeCtx where
  cctx : CCtx
  dctx : DCtx

def zstdUpgradeInit (grant : ℕ → Bool) (h : Heap) : Except ℤ ZstdUpgradeCtx × Heap :=
  match createCCtx grant h with
  | (none, h) => (.error (-ENOMEM), h)
  | (some c, h) =>
    match createDCtx grant h with
    | (none, h) => (.error (-ENOMEM), freeCCtx c h)
    | (some d, h) => (.ok ⟨c, d⟩, h)

def zstdUpgradeExit (ctx : ZstdUpgradeCtx) (h : Heap) : Heap := freeCCtx ctx.cctx (freeDCtx ctx.dctx h)

/-- What a crypto call leaves: the return code, `*dlen`, the tfm and the heap. -/
structure CallResult where
  code : ℤ
  dlen : ℕ
  ctx : ZstdUpgradeCtx
  heap : Heap

/-- The end of either call: an error or a size above `UINT_MAX` is `-EINVAL`. -/
def finishCall (out : Option ℕ) (dlen : ℕ) (ctx : ZstdUpgradeCtx) (h : Heap) : CallResult :=
  match out with
  | none => ⟨-EINVAL, dlen, ctx, h⟩
  | some n => if UINT_MAX < n then ⟨-EINVAL, dlen, ctx, h⟩ else ⟨0, n, ctx, h⟩

def zstdUpgradeCompress (S : Sizes) (grant : ℕ → Bool) (ctx : ZstdUpgradeCtx) (slen dlen : ℕ)
    (e : EndOutcome) (h : Heap) : CallResult :=
  let r := compressCCtx S grant slen e ctx.cctx h
  finishCall r.1 dlen ⟨r.2.1, ctx.dctx⟩ r.2.2

/-- `out` is what the decoder makes of the input. -/
def zstdUpgradeDecompress (ctx : ZstdUpgradeCtx) (dlen : ℕ) (out : Option ℕ) (h : Heap) :
    CallResult :=
  let r := decompressDCtx ctx.dctx h
  finishCall out dlen ⟨ctx.cctx, r.1⟩ r.2

/-! ## Sessions -/

/-- One call on the tfm, with its sizes and what the codec makes of the input. -/
inductive Call where
  | compress (slen dlen : ℕ) (e : EndOutcome)
  | decompress (dlen : ℕ) (out : Option ℕ)

/-- A call as a command: it succeeds with the code 0. -/
def Call.run (S : Sizes) (grant : ℕ → Bool) (c : Call) (s : ZstdUpgradeCtx × Heap) :
    Exit (ZstdUpgradeCtx × Heap) :=
  let r := match c with
    | .compress slen dlen e => zstdUpgradeCompress S grant s.1 slen dlen e s.2
    | .decompress dlen out => zstdUpgradeDecompress s.1 dlen out s.2
  ⟨decide (r.code = 0), r.ctx, r.heap⟩

/-- The heap after init, the calls and exit; a failing init ends the session. -/
def session (S : Sizes) (grant : ℕ → Bool) (cs : List Call) : Heap :=
  match zstdUpgradeInit grant .empty with
  | (.error _, h) => h
  | (.ok ctx, h) =>
    let s := after (Call.run S grant) (ctx, h) cs
    zstdUpgradeExit s.1 s.2

theorem run_compress (S : Sizes) (grant : ℕ → Bool) (slen dlen : ℕ) (e : EndOutcome)
    (s : ZstdUpgradeCtx × Heap) :
    (Call.run S grant (.compress slen dlen e) s).state =
      (⟨(compressCCtx S grant slen e s.1.cctx s.2).2.1, s.1.dctx⟩,
        (compressCCtx S grant slen e s.1.cctx s.2).2.2) := by
  unfold Call.run zstdUpgradeCompress finishCall
  dsimp only
  rcases (compressCCtx S grant slen e s.1.cctx s.2).1 with _ | n
  · rfl
  · dsimp only
    split_ifs
    · rfl
    · rfl

theorem run_decompress (S : Sizes) (grant : ℕ → Bool) (dlen : ℕ) (out : Option ℕ)
    (s : ZstdUpgradeCtx × Heap) :
    (Call.run S grant (.decompress dlen out) s).state =
      (⟨s.1.cctx, (decompressDCtx s.1.dctx s.2).1⟩, (decompressDCtx s.1.dctx s.2).2) := by
  unfold Call.run zstdUpgradeDecompress finishCall
  dsimp only
  rcases out with _ | n
  · rfl
  · dsimp only
    split_ifs
    · rfl
    · rfl

/-! ## The invariant of a tfm -/

/-- The heap owns the two contexts and nothing else. -/
structure ZstdUpgradeCtx.Held (s : ZstdUpgradeCtx × Heap) : Prop where
  cctx : s.1.cctx.Held {s.1.dctx.self} s.2
  noDict : s.1.dctx.ddictLocal = none
  noBuff : s.1.dctx.inBuff = none

/-- Decompression uses its own block and calls no allocator. -/
theorem decompressDCtx_spec {s : ZstdUpgradeCtx × Heap} (hs : ZstdUpgradeCtx.Held s) :
    decompressDCtx s.1.dctx s.2 =
      (s.1.dctx, (s.2.use (some s.1.dctx.self)).use (some s.1.dctx.self)) := by
  obtain ⟨⟨c, ⟨b, d, i⟩⟩, h⟩ := s
  have hd : d = none := hs.noDict
  subst hd
  rfl

theorem run_held (S : Sizes) (grant : ℕ → Bool) (c : Call) {s : ZstdUpgradeCtx × Heap}
    (hs : ZstdUpgradeCtx.Held s) : ZstdUpgradeCtx.Held (c.run S grant s).state := by
  cases c with
  | compress slen dlen e =>
    rw [run_compress]
    exact ⟨compressCCtx_held S grant slen e hs.cctx, hs.noDict, hs.noBuff⟩
  | decompress dlen out =>
    have hmem : s.1.dctx.self ∈ s.1.cctx.blocks ∪ {s.1.dctx.self} :=
      Finset.mem_union_right _ (Finset.mem_singleton_self _)
    rw [run_decompress, decompressDCtx_spec hs]
    refine ⟨{ hs.cctx with owns := ?_ }, hs.noDict, hs.noBuff⟩
    exact (hs.cctx.owns.use hmem).use hmem

theorem freeDCtx_held {s : ZstdUpgradeCtx × Heap} (hs : ZstdUpgradeCtx.Held s) :
    s.1.cctx.Held ∅ (freeDCtx s.1.dctx s.2) := by
  have hmem : s.1.dctx.self ∈ s.1.cctx.blocks ∪ {s.1.dctx.self} :=
    Finset.mem_union_right _ (Finset.mem_singleton_self _)
  have hnot : s.1.dctx.self ∉ s.1.cctx.blocks := Finset.disjoint_singleton_right.mp hs.cctx.apart
  have hfree := (hs.cctx.owns.use hmem).free hmem
  rw [Finset.union_comm, ← Finset.insert_eq, Finset.erase_insert hnot] at hfree
  refine { hs.cctx with owns := ?_, apart := Finset.disjoint_empty_right _ }
  unfold freeDCtx clearDict
  rw [hs.noDict, hs.noBuff, Finset.union_empty]
  exact hfree

/-- `zstd_upgrade_exit` gives everything back. -/
theorem exit_spec {s : ZstdUpgradeCtx × Heap} (hs : ZstdUpgradeCtx.Held s) :
    (zstdUpgradeExit s.1 s.2).Owns ∅ := (freeDCtx_held hs).freeCCtx

/-- `zstd_upgrade_init` makes both contexts, the first without a workspace, or gives everything
back. -/
theorem init_spec (grant : ℕ → Bool) :
    (∀ e h, zstdUpgradeInit grant .empty = (.error e, h) → h.Owns ∅) ∧
      ∀ ctx h, zstdUpgradeInit grant .empty = (.ok ctx, h) →
        ZstdUpgradeCtx.Held (ctx, h) ∧ ctx.cctx.ws = .zero := by
  obtain ⟨hnone, hsome⟩ := createCCtx_spec grant Heap.owns_empty
  unfold zstdUpgradeInit
  generalize createCCtx grant .empty = p at hnone hsome
  rcases p with ⟨_ | c, h⟩
  · refine ⟨fun e h' heq => ?_, fun ctx h' heq => nomatch heq⟩
    cases heq
    exact hnone rfl
  obtain ⟨hc, hz⟩ := hsome c rfl
  unfold createDCtx
  dsimp only at hc ⊢
  cases hg : grant h.requests with
  | false =>
    rw [Heap.malloc_refused hg]
    refine ⟨fun e h' heq => ?_, fun ctx h' heq => nomatch heq⟩
    cases heq
    exact CCtx.Held.freeCCtx { hc with owns := hc.owns.refused }
  | true =>
    rw [Heap.malloc_granted hg]
    refine ⟨(fun e h' heq => nomatch heq), fun ctx h' heq => ?_⟩
    cases heq
    have howns := hc.owns
    rw [Finset.union_empty] at howns
    have hnew : h.requests ∉ c.blocks := fun hm => Nat.lt_irrefl _ (howns.lt_requests hm)
    have hgrant := howns.granted.use (Finset.mem_insert_self _ _)
    rw [Finset.insert_eq, Finset.union_comm] at hgrant
    refine ⟨⟨{ hc with owns := hgrant, apart := ?_ }, rfl, rfl⟩, hz⟩
    exact Finset.disjoint_singleton_right.mpr hnew

theorem session_owns (S : Sizes) (grant : ℕ → Bool) (cs : List Call) :
    (session S grant cs).Owns ∅ := by
  obtain ⟨herr, hok⟩ := init_spec grant
  unfold session
  rcases hi : zstdUpgradeInit grant .empty with ⟨_ | ctx, h⟩
  · exact herr _ h hi
  · exact exit_spec (after_invariant (I := ZstdUpgradeCtx.Held)
      (fun s c hs => run_held S grant c hs) (hok ctx h hi).1 cs)

/-! ## The ledger -/

/-- The call is a compress call whose request for a workspace is refused. -/
def VmallocFails (S : Sizes) (grant : ℕ → Bool) (s : ZstdUpgradeCtx × Heap) : Call → Prop
  | .compress slen _ _ => Resizes S slen s.1.cctx ∧ grant s.2.requests = false
  | .decompress _ _ => False

/-- The call finds no workspace and cannot make one, or does not look for it. -/
def StaysWithout (S : Sizes) (grant : ℕ → Bool) (s : ZstdUpgradeCtx × Heap) : Call → Prop
  | .compress slen dlen e => VmallocFails S grant s (.compress slen dlen e)
  | .decompress _ _ => True

/-- The reset at the head of the next compress call works in a block that this call got, with every
pointer in it and the window at its start. -/
structure StartsFresh (S : Sizes) (grant : ℕ → Bool) (slen : ℕ) (s : ZstdUpgradeCtx × Heap) :
    Prop where
  block_new : MemEvent.alloc s.2.requests ∉ s.2.trace
  workspace : (resetCCtx S grant slen s.1.cctx s.2).state.1.ws.workspace = some s.2.requests
  objects : (resetCCtx S grant slen s.1.cctx s.2).state.1.objects = some s.2.requests
  tables : (resetCCtx S grant slen s.1.cctx s.2).state.1.tables = some s.2.requests
  index : (resetCCtx S grant slen s.1.cctx s.2).state.1.index = ZSTD_WINDOW_START_INDEX

/-- A tfm in order whose compression context has no workspace. -/
structure WithoutWorkspace (s : ZstdUpgradeCtx × Heap) : Prop where
  held : ZstdUpgradeCtx.Held s
  zero : s.1.cctx.ws = .zero

theorem run_withoutWorkspace {S : Sizes} {grant : ℕ → Bool} {c : Call}
    {s : ZstdUpgradeCtx × Heap} (hs : ZstdUpgradeCtx.Held s) (hf : VmallocFails S grant s c) :
    WithoutWorkspace (c.run S grant s).state := by
  refine ⟨run_held S grant c hs, ?_⟩
  cases c with
  | compress slen dlen e =>
    rw [run_compress]
    exact (compressCCtx_failed S grant slen e hs.cctx ((resetCCtx_ok S grant slen _ _).mpr hf)).2
  | decompress dlen out => exact hf.elim

theorem run_staysWithout {S : Sizes} {grant : ℕ → Bool} {c : Call} {s : ZstdUpgradeCtx × Heap}
    (hs : WithoutWorkspace s) (hc : StaysWithout S grant s c) :
    WithoutWorkspace (c.run S grant s).state := by
  cases c with
  | compress slen dlen e => exact run_withoutWorkspace hs.held hc
  | decompress dlen out =>
    refine ⟨run_held S grant _ hs.held, ?_⟩
    rw [run_decompress]
    exact hs.zero

/-- **Memory ledger**: in every session, whatever requests are refused, each block handed out is
freed exactly once, none is used after it was freed and no null pointer is used; and once a compress
call has lost its request, the next one that gets a workspace starts afresh in it. -/
theorem zstd_ledger (S : Sizes) (grant : ℕ → Bool) (cs : List Call) :
    (∀ b, MemEvent.alloc b ∈ (session S grant cs).trace →
      (session S grant cs).trace.count (.free b) = 1) ∧
    (∀ b pre post, (session S grant cs).trace = pre ++ .free b :: post → MemEvent.use b ∉ post) ∧
    MemEvent.null ∉ (session S grant cs).trace ∧
    ∀ ctx h, zstdUpgradeInit grant .empty = (.ok ctx, h) → ∀ (c : Call) (mid : List Call),
      VmallocFails S grant (after (Call.run S grant) (ctx, h) cs) c →
      EachRun (Call.run S grant) (StaysWithout S grant)
        (c.run S grant (after (Call.run S grant) (ctx, h) cs)).state mid →
      ∀ slen, ¬VmallocFails S grant (after (Call.run S grant) (ctx, h) (cs ++ c :: mid))
          (.compress slen 0 ⟨none, 0⟩) →
        StartsFresh S grant slen (after (Call.run S grant) (ctx, h) (cs ++ c :: mid)) := by
  have hown := session_owns S grant cs
  refine ⟨fun b hb => hown.ledger.freed_once hb, fun b pre post => hown.ledger.no_use_after_free,
    hown.ledger.no_null, ?_⟩
  intro ctx h hi c mid hf hmid slen hgets
  have hheld := after_invariant (I := ZstdUpgradeCtx.Held) (fun s c hs => run_held S grant c hs)
    ((init_spec grant).2 ctx h hi).1 cs
  have hw : WithoutWorkspace (after (Call.run S grant) (ctx, h) (cs ++ c :: mid)) := by
    have hend := hmid.after (I := WithoutWorkspace) (fun s c hs hc => run_staysWithout hs hc)
      (run_withoutWorkspace hheld hf)
    rw [after_append]
    exact hend
  generalize after (Call.run S grant) (ctx, h) (cs ++ c :: mid) = s at hw hgets
  have hok : (resetCCtx S grant slen s.1.cctx s.2).ok = true :=
    Bool.eq_true_of_not_eq_false fun hf => hgets ((resetCCtx_ok S grant slen _ _).mp hf)
  obtain ⟨h₁, h₂, h₃, h₄⟩ := resetCCtx_restarts S grant slen hw.held.cctx hw.zero hok
  exact ⟨fun hm => Nat.lt_irrefl _ (hw.held.cctx.owns.past _ hm), h₁, h₂, h₃, h₄⟩

/-- An input of `n` bytes needs `n + 1` bytes, all of them used. -/
def tight : Sizes where
  needed n := n + 1
  used n := n + 1
  needed_pos := Nat.succ_pos
  used_le _ := Nat.le_refl _

/-- The fourth request refused: a first call has had a workspace, the next one needs a larger one and
gives the old one back before it fails, and after a decompress call the third starts afresh. -/
theorem zstd_ledger_growth :
    ∃ ctx h, zstdUpgradeInit (· != 3) .empty = (.ok ctx, h) ∧
      StartsFresh tight (· != 3) 7 (after (Call.run tight (· != 3)) (ctx, h)
        [.compress 5 5 ⟨some 3, 7⟩, .compress 50 5 ⟨some 3, 7⟩, .decompress 5 (some 5)]) :=
  ⟨_, _, rfl, (zstd_ledger tight (· != 3) [.compress 5 5 ⟨some 3, 7⟩]).2.2.2 _ _ rfl
    (.compress 50 5 ⟨some 3, 7⟩) [.decompress 5 (some 5)] ⟨rfl, rfl⟩ ⟨trivial, trivial⟩ 7
    fun h => nomatch h.2⟩

/-! ## Calls of the allocator -/

/-- The call leaves the allocator alone: no request, granted or not, and no free. -/
def QuietCall (S : Sizes) (grant : ℕ → Bool) (s : ZstdUpgradeCtx × Heap) (c : Call) : Prop :=
  (c.run S grant s).state.2.calls = s.2.calls

def Call.isCompress : Call → Bool
  | .compress _ _ _ => true
  | .decompress _ _ => false

theorem quietCall_compress {S : Sizes} {grant : ℕ → Bool} {slen dlen : ℕ} {e : EndOutcome}
    {s : ZstdUpgradeCtx × Heap} :
    QuietCall S grant s (.compress slen dlen e) ↔ ¬Resizes S slen s.1.cctx := by
  unfold QuietCall
  rw [run_compress]
  exact compressCCtx_calls S grant slen e s.1.cctx s.2

theorem quietCall_decompress {S : Sizes} {grant : ℕ → Bool} {dlen : ℕ} {out : Option ℕ}
    {s : ZstdUpgradeCtx × Heap} (hs : ZstdUpgradeCtx.Held s) :
    QuietCall S grant s (.decompress dlen out) := by
  unfold QuietCall
  rw [run_decompress, decompressDCtx_spec hs]
  exact (Heap.calls_use _ _).trans (Heap.calls_use _ _)

/-- From a tfm without a workspace, all calls are quiet exactly if none of them compresses. -/
theorem eachRun_quiet_iff (S : Sizes) (grant : ℕ → Bool) (cs : List Call)
    {s : ZstdUpgradeCtx × Heap} (hs : WithoutWorkspace s) :
    EachRun (Call.run S grant) (QuietCall S grant) s cs ↔ ∀ c ∈ cs, c.isCompress = false := by
  induction cs generalizing s with
  | nil => exact iff_of_true trivial fun c hc => nomatch hc
  | cons c cs ih =>
    rw [List.forall_mem_cons]
    cases c with
    | compress slen dlen e =>
      refine iff_of_false (fun h => ?_) fun h => nomatch h.1
      exact quietCall_compress.mp h.1 (resizes_of_zero S slen hs.zero)
    | decompress dlen out =>
      have hnext : WithoutWorkspace (Call.run S grant (.decompress dlen out) s).state :=
        run_staysWithout hs trivial
      exact and_congr (iff_of_true (quietCall_decompress hs.held) rfl) (ih hnext)

/-- **Memory outside init**: after a successful init, no call of a run goes to the allocator exactly
if the run compresses nothing. -/
theorem zstd_calls_quiet_iff (S : Sizes) (grant : ℕ → Bool) (ctx : ZstdUpgradeCtx) (h : Heap)
    (hi : zstdUpgradeInit grant .empty = (.ok ctx, h)) (cs : List Call) :
    EachRun (Call.run S grant) (QuietCall S grant) (ctx, h) cs ↔
      ∀ c ∈ cs, c.isCompress = false := by
  obtain ⟨hheld, hz⟩ := (init_spec grant).2 ctx h hi
  exact eachRun_quiet_iff S grant cs ⟨hheld, hz⟩

theorem zstd_calls_quiet_decompress :
    ∃ ctx h, zstdUpgradeInit (fun _ => true) .empty = (.ok ctx, h) ∧
      EachRun (Call.run tight fun _ => true) (QuietCall tight fun _ => true) (ctx, h)
        [.decompress 5 (some 5), .decompress 6 none] :=
  ⟨_, _, rfl, (zstd_calls_quiet_iff tight (fun _ => true) _ _ rfl _).mpr (by decide)⟩

/-- The first compress call asks for the workspace. -/
theorem zstd_compress_allocates :
    ¬∀ (S : Sizes) (grant : ℕ → Bool) (ctx : ZstdUpgradeCtx) (h : Heap),
      zstdUpgradeInit grant .empty = (.ok ctx, h) → ∀ cs : List Call,
        EachRun (Call.run S grant) (QuietCall S grant) (ctx, h) cs := by
  intro hall
  obtain ⟨hquiet, -⟩ := hall tight (fun _ => true) _ _ rfl [.compress 5 5 ⟨some 3, 7⟩]
  exact quietCall_compress.mp hquiet rfl

end ZramUpgrade.Zstd
