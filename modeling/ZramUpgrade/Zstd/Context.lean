import ZramUpgrade.Lib.Ledger
import ZramUpgrade.Lib.Script

/-!
# Zstd.Context — the memory of a compression and a decompression context

`ZSTD_CCtx` owns one workspace, which `ZSTD_resetCCtx_internal` (`compress/zstd_compress.c`,
`compress/zstd_cwksp.h`) replaces when it is too small for the next input, or has been three times
too large for more than 128 calls.  The old block is freed before the new one is asked for.  Blocks
are the ledger's; a pointer into a block is the block.
-/

namespace ZramUpgrade.Zstd

open Lib

abbrev ZSTD_WORKSPACETOOLARGE_FACTOR : ℕ := 3
abbrev ZSTD_WORKSPACETOOLARGE_MAXDURATION : ℤ := 128
abbrev ZSTD_WINDOW_START_INDEX : ℕ := 2
abbrev ZSTD_CURRENT_MAX : ℕ := 3500 * 2 ^ 20
abbrev ZSTD_INDEXOVERFLOW_MARGIN : ℕ := 16 * 2 ^ 20

/-- The sizing arithmetic at level 3: the workspace an input of a length needs, and how much of it
the reservations take. -/
structure Sizes where
  needed : ℕ → ℕ
  used : ℕ → ℕ
  needed_pos : ∀ slen, 0 < needed slen
  used_le : ∀ slen, used slen ≤ needed slen

/-! ## The workspace -/

/-- `ZSTD_cwksp`: the block, its size, the space between tables and buffers, and the counter. -/
structure Cwksp where
  workspace : Option ℕ
  size : ℕ
  available : ℕ
  oversizedDuration : ℤ

namespace Cwksp

/-- A `ZSTD_cwksp` of zero bytes. -/
def zero : Cwksp := ⟨none, 0, 0, 0⟩

/-- `ZSTD_cwksp_create`. -/
def create (grant : ℕ → Bool) (size : ℕ) (h : Heap) : Option Cwksp × Heap :=
  match h.malloc grant with
  | (none, h) => (none, h)
  | (some b, h) => (some ⟨some b, size, size, 0⟩, h)

/-- `ZSTD_cwksp_free`: the record is zeroed first. -/
def free (ws : Cwksp) (h : Heap) : Cwksp × Heap := (zero, h.free ws.workspace)

/-- `ZSTD_cwksp_check_too_large`. -/
def checkTooLarge (ws : Cwksp) (n : ℕ) : Bool := n * ZSTD_WORKSPACETOOLARGE_FACTOR ≤ ws.available

/-- `ZSTD_cwksp_check_wasteful`. -/
def checkWasteful (ws : Cwksp) (n : ℕ) : Bool :=
  ws.checkTooLarge n && ZSTD_WORKSPACETOOLARGE_MAXDURATION < ws.oversizedDuration

/-- `ZSTD_cwksp_bump_oversized_duration`; the counter is an `int`. -/
def bumpOversizedDuration (ws : Cwksp) (n : ℕ) : Cwksp :=
  if ws.checkTooLarge n then
    { ws with oversizedDuration := (ws.oversizedDuration + 1).bmod (2 ^ 32) }
  else { ws with oversizedDuration := 0 }

theorem bump_workspace (ws : Cwksp) (n : ℕ) :
    (ws.bumpOversizedDuration n).workspace = ws.workspace ∧
      (ws.bumpOversizedDuration n).size = ws.size := by
  unfold bumpOversizedDuration
  split_ifs
  · exact ⟨rfl, rfl⟩
  · exact ⟨rfl, rfl⟩

end Cwksp

/-! ## The compression context -/

/-- `ZSTD_CCtx`: its own block, the workspace, `initialized`, how far the window has moved, and the
pointers into the workspace: `objects` (the block states, `tmpWorkspace`) are set when a workspace is
made, `tables` (the match state's, the sequence store's) at each reset. -/
structure CCtx where
  self : ℕ
  localDict : Option ℕ
  ws : Cwksp
  initialized : Bool
  index : ℕ
  objects : Option ℕ
  tables : Option ℕ

/-- `ZSTD_createCCtx_advanced`; `ZSTD_initCCtx` zeroes the block. -/
def createCCtx (grant : ℕ → Bool) (h : Heap) : Option CCtx × Heap :=
  match h.malloc grant with
  | (none, h) => (none, h)
  | (some b, h) => (some ⟨b, none, .zero, false, 0, none, none⟩, h.use (some b))

/-- `ZSTD_freeCCtx`. -/
def freeCCtx (c : CCtx) (h : Heap) : Heap :=
  let h := (h.use (some c.self)).free c.localDict
  (c.ws.free h).2.free (some c.self)

/-- The rest of the reset once the workspace is there: `prevCBlock` is reset, the window starts anew
if so told, the tables are placed and cleaned, the buffers reserved. -/
def layOut (S : Sizes) (slen : ℕ) (indexReset : Bool) (c : CCtx) (h : Heap) : CCtx × Heap :=
  let h := h.use c.objects
  let h := h.use c.ws.workspace
  ({ c with
      index := if indexReset then ZSTD_WINDOW_START_INDEX else c.index
      tables := c.ws.workspace
      ws := { c.ws with available := c.ws.size - S.used slen }
      initialized := true }, h)

/-- The resize in `ZSTD_resetCCtx_internal`: the old workspace goes before the new one is asked for,
and only with the new one are the pointers to its objects set. -/
def resizeWorkspace (grant : ℕ → Bool) (neededSpace : ℕ) (c : CCtx) (h : Heap) :
    Exit (CCtx × Heap) :=
  let freed := c.ws.free h
  match Cwksp.create grant neededSpace freed.2 with
  | (none, h) => ⟨false, { c with ws := freed.1 }, h⟩
  | (some ws, h) => ⟨true, { c with ws := ws, objects := ws.workspace }, h⟩

/-- Whether the workspace is resized. -/
def resizes (c : CCtx) (neededSpace : ℕ) : Bool :=
  c.ws.size < neededSpace || c.ws.checkWasteful neededSpace

/-- `ZSTD_resetCCtx_internal`, without dictionary, long-distance matching or external sequences;
the reservations fit in the space estimated for them. -/
def resetCCtx (S : Sizes) (grant : ℕ → Bool) (slen : ℕ) (c : CCtx) (h : Heap) :
    Exit (CCtx × Heap) :=
  let h := h.use (some c.self)
  let indexTooClose := decide (ZSTD_CURRENT_MAX - ZSTD_INDEXOVERFLOW_MARGIN < c.index)
  let needsIndexReset := indexTooClose || !c.initialized
  let c := { c with ws := c.ws.bumpOversizedDuration 0 }
  if resizes c (S.needed slen) then
    (resizeWorkspace grant (S.needed slen) c h).andThen fun s => ⟨true, layOut S slen true s.1 s.2⟩
  else ⟨true, layOut S slen needsIndexReset c h⟩

/-- What `ZSTD_compressEnd_public` makes of the input: the size written, if no error, and where the
window is then. -/
structure EndOutcome where
  out : Option ℕ
  index : ℕ

/-- `ZSTD_compressEnd_public`, for the memory: it works in the context and its workspace. -/
def compressEnd (e : EndOutcome) (c : CCtx) (h : Heap) : CCtx × Heap :=
  ({ c with index := e.index }, ((h.use (some c.self)).use c.objects).use c.tables)

/-- `ZSTD_compressCCtx`: the result and what it leaves. -/
def compressCCtx (S : Sizes) (grant : ℕ → Bool) (slen : ℕ) (e : EndOutcome) (c : CCtx) (h : Heap) :
    Option ℕ × CCtx × Heap :=
  match resetCCtx S grant slen c h with
  | ⟨false, s⟩ => (none, s)
  | ⟨true, s⟩ => (e.out, compressEnd e s.1 s.2)

/-! ## The decompression context -/

/-- `ZSTD_DCtx`: its own block, the dictionary and the stream buffer it would own. -/
structure DCtx where
  self : ℕ
  ddictLocal : Option ℕ
  inBuff : Option ℕ

/-- `ZSTD_createDCtx_advanced`. -/
def createDCtx (grant : ℕ → Bool) (h : Heap) : Option DCtx × Heap :=
  match h.malloc grant with
  | (none, h) => (none, h)
  | (some b, h) => (some ⟨b, none, none⟩, h.use (some b))

/-- `ZSTD_clearDict`. -/
def clearDict (d : DCtx) (h : Heap) : DCtx × Heap :=
  ({ d with ddictLocal := none }, (h.use (some d.self)).free d.ddictLocal)

/-- `ZSTD_freeDCtx`. -/
def freeDCtx (d : DCtx) (h : Heap) : Heap :=
  ((clearDict d h).2.free d.inBuff).free (some d.self)

/-- `ZSTD_decompressDCtx`, for the memory; frames are decoded within the context's own block. -/
def decompressDCtx (d : DCtx) (h : Heap) : DCtx × Heap :=
  let r := clearDict d h
  (r.1, r.2.use (some d.self))

/-! ## Ownership -/

/-- The blocks of a compression context. -/
def CCtx.blocks (c : CCtx) : Finset ℕ := insert c.self c.ws.workspace.toFinset

/-- The heap owns the blocks of `c` and, apart from them, `R`; the pointers of `c` are its own. -/
structure CCtx.Held (c : CCtx) (R : Finset ℕ) (h : Heap) : Prop where
  owns : h.Owns (c.blocks ∪ R)
  apart : Disjoint c.blocks R
  self_notMem : c.self ∉ c.ws.workspace.toFinset
  size_zero : c.ws.workspace = none → c.ws.size = 0
  objects : ∀ b, c.ws.workspace = some b → c.objects = some b
  noDict : c.localDict = none

theorem CCtx.self_mem (c : CCtx) : c.self ∈ c.blocks := Finset.mem_insert_self _ _

theorem CCtx.workspace_mem {c : CCtx} {b : ℕ} (h : c.ws.workspace = some b) : b ∈ c.blocks :=
  Finset.mem_insert_of_mem (Option.mem_toFinset.mpr h)

/-- A context without a workspace owns its own block. -/
theorem CCtx.blocks_none {c : CCtx} (h : c.ws.workspace = none) : c.blocks = {c.self} := by
  unfold CCtx.blocks
  rw [h]
  rfl

theorem CCtx.blocks_some {c : CCtx} {b : ℕ} (h : c.ws.workspace = some b) :
    c.blocks = {c.self, b} := by
  unfold CCtx.blocks
  rw [h]
  rfl

variable {c : CCtx} {R : Finset ℕ} {h : Heap}

theorem CCtx.Held.use_self (hc : c.Held R h) : c.Held R (h.use (some c.self)) :=
  { hc with owns := hc.owns.use (Finset.mem_union_left R c.self_mem) }

theorem CCtx.Held.use_workspace (hc : c.Held R h) {b : ℕ} (hb : c.ws.workspace = some b) :
    c.Held R (h.use (some b)) :=
  { hc with owns := hc.owns.use (Finset.mem_union_left R (CCtx.workspace_mem hb)) }

/-- What is left once the workspace is freed: the context's own block and `R`. -/
theorem CCtx.Held.free_workspace (hc : c.Held R h) :
    (h.free c.ws.workspace).Owns (insert c.self R) := by
  have howns := hc.owns
  cases hw : c.ws.workspace with
  | none =>
    rw [CCtx.blocks_none hw, Finset.singleton_union] at howns
    exact howns
  | some b =>
    have hne : b ≠ c.self := by
      rintro rfl
      exact hc.self_notMem (by rw [hw]; exact Finset.mem_singleton_self _)
    have hR : b ∉ R := Finset.disjoint_left.mp hc.apart (CCtx.workspace_mem hw)
    have hfree := howns.free (Finset.mem_union_left R (CCtx.workspace_mem hw))
    have hset : (c.blocks ∪ R).erase b = insert c.self R := by
      rw [CCtx.blocks_some hw]
      ext x
      simp only [Finset.mem_erase, Finset.mem_union, Finset.mem_insert, Finset.mem_singleton]
      constructor
      · rintro ⟨hx, (rfl | rfl) | hxR⟩
        · exact .inl rfl
        · exact absurd rfl hx
        · exact .inr hxR
      · rintro (rfl | hxR)
        · exact ⟨fun h => hne h.symm, .inl (.inl rfl)⟩
        · exact ⟨fun h => hR (h ▸ hxR), .inr hxR⟩
    rw [hset] at hfree
    exact hfree

/-- `ZSTD_freeCCtx` gives back both blocks. -/
theorem CCtx.Held.freeCCtx (hc : c.Held R h) : (freeCCtx c h).Owns R := by
  have hself : c.self ∉ R := Finset.disjoint_left.mp hc.apart c.self_mem
  have hws := hc.use_self.free_workspace
  have hfree := hws.free (Finset.mem_insert_self c.self R)
  rw [Finset.erase_insert hself] at hfree
  unfold Zstd.freeCCtx
  rw [hc.noDict]
  exact hfree

/-- `ZSTD_createCCtx_advanced` gives a context without a workspace, or nothing. -/
theorem createCCtx_spec (grant : ℕ → Bool) (hR : h.Owns R) :
    ((createCCtx grant h).1 = none → (createCCtx grant h).2.Owns R) ∧
      ∀ c, (createCCtx grant h).1 = some c →
        c.Held R (createCCtx grant h).2 ∧ c.ws = .zero := by
  unfold createCCtx
  cases hg : grant h.requests with
  | false =>
    rw [Heap.malloc_refused hg]
    exact ⟨fun _ => hR.refused, fun c hc => nomatch hc⟩
  | true =>
    rw [Heap.malloc_granted hg]
    refine ⟨(fun h => nomatch h), fun c hc => ?_⟩
    cases hc
    refine ⟨⟨?_, ?_, ?_, fun _ => rfl, (fun b h => nomatch h), rfl⟩, rfl⟩
    · exact hR.granted.use (Finset.mem_insert_self _ _)
    · exact Finset.disjoint_singleton_left.mpr fun hm => Nat.lt_irrefl _ (hR.lt_requests hm)
    · exact Finset.notMem_empty _

/-! ## The reset -/

/-- The context in which the reset decides about the workspace. -/
def CCtx.bumped (c : CCtx) : CCtx := { c with ws := c.ws.bumpOversizedDuration 0 }

/-- The workspace is resized by the reset for an input of length `slen`. -/
def Resizes (S : Sizes) (slen : ℕ) (c : CCtx) : Prop :=
  resizes c.bumped (S.needed slen) = true

theorem resetCCtx_resize {S : Sizes} {grant : ℕ → Bool} {slen : ℕ} (hr : Resizes S slen c) :
    resetCCtx S grant slen c h =
      (resizeWorkspace grant (S.needed slen) c.bumped (h.use (some c.self))).andThen
        fun s => ⟨true, layOut S slen true s.1 s.2⟩ :=
  if_pos hr

theorem resetCCtx_keep {S : Sizes} {grant : ℕ → Bool} {slen : ℕ} (hr : ¬Resizes S slen c) :
    resetCCtx S grant slen c h =
      ⟨true, layOut S slen
        (decide (ZSTD_CURRENT_MAX - ZSTD_INDEXOVERFLOW_MARGIN < c.index) || !c.initialized)
        c.bumped (h.use (some c.self))⟩ :=
  if_neg hr

/-- A resize either leaves no workspace, or a new one, from the request it made, with the pointers
to its objects in it. -/
theorem resizeWorkspace_held (grant : ℕ → Bool) (n : ℕ) (hc : c.Held R h) :
    (resizeWorkspace grant n c h).Post
      (fun s => s.1.Held R s.2 ∧ s.1.ws.workspace = some h.requests)
      fun s => s.1.Held R s.2 ∧ s.1.ws = .zero := by
  have hown := hc.free_workspace
  have hself : c.self ∉ R := Finset.disjoint_left.mp hc.apart c.self_mem
  have hreq : (h.free c.ws.workspace).requests = h.requests := Heap.free_requests _ _
  unfold resizeWorkspace Cwksp.create Cwksp.free
  dsimp only
  cases hg : grant (h.free c.ws.workspace).requests with
  | false =>
    rw [Heap.malloc_refused hg]
    refine ⟨(fun h => nomatch h), fun _ => ⟨⟨hown.refused, ?_, ?_, fun _ => rfl, ?_, hc.noDict⟩,
      rfl⟩⟩
    · exact Finset.disjoint_singleton_left.mpr hself
    · exact Finset.notMem_empty _
    · intro b hb
      exact nomatch hb
  | true =>
    have hgrant := hown.granted
    have hnew : (h.free c.ws.workspace).requests ∉ insert c.self R :=
      fun hm => Nat.lt_irrefl _ (hown.lt_requests hm)
    rw [Heap.malloc_granted hg]
    rw [hreq] at hgrant hnew ⊢
    rw [Finset.mem_insert, not_or] at hnew
    refine ⟨fun _ => ⟨⟨?_, ?_, ?_, (fun hn => nomatch hn), fun b hb => hb, hc.noDict⟩, rfl⟩,
      (fun h => nomatch h)⟩
    · have hset : insert h.requests (insert c.self R) = {c.self, h.requests} ∪ R := by
        ext x
        simp only [Finset.mem_insert, Finset.mem_union, Finset.mem_singleton]
        tauto
      rw [hset] at hgrant
      exact hgrant
    · exact Finset.disjoint_insert_left.mpr
        ⟨hself, Finset.disjoint_singleton_left.mpr hnew.2⟩
    · exact fun hm => hnew.1 (Finset.mem_singleton.mp hm).symm

theorem layOut_held (S : Sizes) (slen : ℕ) (r : Bool) {b : ℕ} (hc : c.Held R h)
    (hb : c.ws.workspace = some b) : (layOut S slen r c h).1.Held R (layOut S slen r c h).2 := by
  have hu := (hc.use_workspace hb).use_workspace hb
  unfold layOut
  rw [hc.objects b hb, hb]
  refine ⟨hu.owns, hc.apart, hc.self_notMem, hc.size_zero, fun b' hb' => ?_, hc.noDict⟩
  exact hb.symm.trans hb'

theorem CCtx.Held.bump (hc : c.Held R h) : c.bumped.Held R h := by
  obtain ⟨hw, hsize⟩ := c.ws.bump_workspace 0
  have hblocks : c.bumped.blocks = c.blocks := by
    unfold CCtx.blocks CCtx.bumped
    rw [hw]
  refine ⟨?_, ?_, ?_, ?_, ?_, hc.noDict⟩
  · rw [hblocks]
    exact hc.owns
  · rw [hblocks]
    exact hc.apart
  · unfold CCtx.bumped
    rw [hw]
    exact hc.self_notMem
  · unfold CCtx.bumped
    rw [hw, hsize]
    exact hc.size_zero
  · unfold CCtx.bumped
    rw [hw]
    exact hc.objects

/-- A context that is not resized has a workspace. -/
theorem CCtx.Held.workspace_of_keep (hc : c.Held R h) {n : ℕ} (hn : 0 < n)
    (hr : resizes c n = false) : ∃ b, c.ws.workspace = some b := by
  unfold resizes at hr
  rw [Bool.or_eq_false_iff, decide_eq_false_iff_not, Nat.not_lt] at hr
  apply Option.ne_none_iff_exists'.mp
  intro hw
  have h0 := hc.size_zero hw
  omega

/-- **`ZSTD_resetCCtx_internal`**: the context stays in order on either exit; a reset that fails
leaves no workspace, one that succeeds leaves every pointer in the workspace it has. -/
theorem resetCCtx_held (S : Sizes) (grant : ℕ → Bool) (slen : ℕ) (hc : c.Held R h) :
    (resetCCtx S grant slen c h).Post
      (fun s => s.1.Held R s.2 ∧ ∃ b, s.1.ws.workspace = some b ∧ s.1.tables = some b)
      fun s => s.1.Held R s.2 ∧ s.1.ws = .zero := by
  have hb := hc.use_self.bump
  by_cases hr : Resizes S slen c
  · rw [resetCCtx_resize hr]
    refine Exit.Post.andThen (resizeWorkspace_held grant _ hb) ?_
    rintro s ⟨hs, hws⟩
    exact ⟨fun _ => ⟨layOut_held S slen true hs hws, _, hws, hws⟩, (fun h => nomatch h)⟩
  · obtain ⟨b, hw⟩ := hb.workspace_of_keep (S.needed_pos slen) (Bool.eq_false_of_not_eq_true hr)
    rw [resetCCtx_keep hr]
    exact ⟨fun _ => ⟨layOut_held S slen _ hb hw, b, hw, hw⟩, (fun h => nomatch h)⟩

/-- The reset fails exactly where it resizes and its request is refused. -/
theorem resetCCtx_ok (S : Sizes) (grant : ℕ → Bool) (slen : ℕ) (c : CCtx) (h : Heap) :
    (resetCCtx S grant slen c h).ok = false ↔ Resizes S slen c ∧ grant h.requests = false := by
  by_cases hr : Resizes S slen c
  swap
  · rw [resetCCtx_keep hr]
    exact iff_of_false (fun h => nomatch h) fun h => hr h.1
  have hresize : (resizeWorkspace grant (S.needed slen) c.bumped (h.use (some c.self))).ok =
      grant h.requests := by
    have hreq : ((h.use (some c.self)).free c.bumped.ws.workspace).requests = h.requests := by
      rw [Heap.free_requests, Heap.use_requests]
    unfold resizeWorkspace Cwksp.create Cwksp.free
    dsimp only
    rw [← hreq]
    cases hg : grant ((h.use (some c.self)).free c.bumped.ws.workspace).requests with
    | false => rw [Heap.malloc_refused hg]
    | true => rw [Heap.malloc_granted hg]
  rw [resetCCtx_resize hr, ← hresize]
  generalize resizeWorkspace grant (S.needed slen) c.bumped (h.use (some c.self)) = r
  rcases r with ⟨_ | _, s⟩
  · exact iff_of_true rfl ⟨hr, rfl⟩
  · exact iff_of_false (fun h => nomatch h) fun h => nomatch h.2

theorem resizes_of_zero (S : Sizes) (slen : ℕ) (hz : c.ws = .zero) : Resizes S slen c := by
  have hsize := (c.ws.bump_workspace 0).2
  unfold Resizes resizes CCtx.bumped
  rw [Bool.or_eq_true, decide_eq_true_eq]
  rw [hz] at hsize
  exact .inl (by rw [hz, hsize]; exact S.needed_pos slen)

/-- A context without a workspace: the reset asks for one, and starts anew in it. -/
theorem resetCCtx_restarts (S : Sizes) (grant : ℕ → Bool) (slen : ℕ) (hc : c.Held R h)
    (hz : c.ws = .zero) (hok : (resetCCtx S grant slen c h).ok = true) :
    (resetCCtx S grant slen c h).state.1.ws.workspace = some h.requests ∧
      (resetCCtx S grant slen c h).state.1.objects = some h.requests ∧
      (resetCCtx S grant slen c h).state.1.tables = some h.requests ∧
      (resetCCtx S grant slen c h).state.1.index = ZSTD_WINDOW_START_INDEX := by
  have hpost : (resetCCtx S grant slen c h).Post
      (fun s => s.1.ws.workspace = some h.requests ∧ s.1.objects = some h.requests ∧
        s.1.tables = some h.requests ∧ s.1.index = ZSTD_WINDOW_START_INDEX)
      fun _ => True := by
    have hb := hc.use_self.bump
    rw [resetCCtx_resize (resizes_of_zero S slen hz)]
    refine Exit.Post.andThen ((resizeWorkspace_held grant _ hb).mono (fun _ h => h)
      fun _ _ => trivial) ?_
    rintro s ⟨hs, hws⟩
    rw [Heap.use_requests] at hws
    exact ⟨fun _ => ⟨hws, hs.objects _ hws, hws, rfl⟩, (fun h => nomatch h)⟩
  exact hpost.1 hok

theorem compressEnd_held (e : EndOutcome) {b : ℕ} (hc : c.Held R h)
    (hb : c.ws.workspace = some b) (ht : c.tables = some b) :
    (compressEnd e c h).1.Held R (compressEnd e c h).2 := by
  have hu := (hc.use_self.use_workspace hb).use_workspace hb
  unfold compressEnd
  rw [hc.objects b hb, ht]
  refine ⟨hu.owns, hc.apart, hc.self_notMem, hc.size_zero, fun b' hb' => ?_, hc.noDict⟩
  exact hb.symm.trans hb'

theorem compressCCtx_held (S : Sizes) (grant : ℕ → Bool) (slen : ℕ) (e : EndOutcome)
    (hc : c.Held R h) :
    (compressCCtx S grant slen e c h).2.1.Held R (compressCCtx S grant slen e c h).2.2 := by
  have hpost := resetCCtx_held S grant slen hc
  unfold compressCCtx
  generalize resetCCtx S grant slen c h = r at hpost ⊢
  rcases r with ⟨ok, s⟩
  cases ok with
  | false => exact (hpost.2 rfl).1
  | true =>
    obtain ⟨hs, b, hb, ht⟩ := hpost.1 rfl
    exact compressEnd_held e hs hb ht

/-- A compress call whose reset fails returns an error and leaves no workspace. -/
theorem compressCCtx_failed (S : Sizes) (grant : ℕ → Bool) (slen : ℕ) (e : EndOutcome)
    (hc : c.Held R h) (hf : (resetCCtx S grant slen c h).ok = false) :
    (compressCCtx S grant slen e c h).1 = none ∧
      (compressCCtx S grant slen e c h).2.1.ws = .zero := by
  have hpost := resetCCtx_held S grant slen hc
  unfold compressCCtx
  generalize resetCCtx S grant slen c h = r at hpost hf ⊢
  rcases r with ⟨ok, s⟩
  cases hf
  exact ⟨rfl, (hpost.2 rfl).2⟩

/-! ## When the allocator is called -/

theorem layOut_calls (S : Sizes) (slen : ℕ) (r : Bool) (c : CCtx) (h : Heap) :
    (layOut S slen r c h).2.calls = h.calls := by
  unfold layOut
  rw [Heap.calls_use, Heap.calls_use]

theorem resizeWorkspace_calls (grant : ℕ → Bool) (n : ℕ) (c : CCtx) (h : Heap) :
    h.calls.length < (resizeWorkspace grant n c h).state.2.calls.length := by
  have hfree := Heap.calls_free_length c.ws.workspace h
  have hmalloc := Heap.calls_malloc_length grant (h.free c.ws.workspace)
  unfold resizeWorkspace Cwksp.create Cwksp.free
  dsimp only
  rcases hm : (h.free c.ws.workspace).malloc grant with ⟨_ | b, h'⟩
  · rw [hm] at hmalloc
    dsimp only at hmalloc ⊢
    omega
  · rw [hm] at hmalloc
    dsimp only at hmalloc ⊢
    omega

/-- A compress call goes to the allocator exactly when its reset resizes the workspace. -/
theorem compressCCtx_calls (S : Sizes) (grant : ℕ → Bool) (slen : ℕ) (e : EndOutcome) (c : CCtx)
    (h : Heap) :
    (compressCCtx S grant slen e c h).2.2.calls = h.calls ↔ ¬Resizes S slen c := by
  have hend : (compressCCtx S grant slen e c h).2.2.calls =
      (resetCCtx S grant slen c h).state.2.calls := by
    unfold compressCCtx
    generalize resetCCtx S grant slen c h = r
    rcases r with ⟨_ | _, s⟩
    · rfl
    · unfold compressEnd
      rw [Heap.calls_use, Heap.calls_use, Heap.calls_use]
  rw [hend]
  by_cases hr : Resizes S slen c
  · have hgrow := resizeWorkspace_calls grant (S.needed slen) c.bumped (h.use (some c.self))
    rw [Heap.calls_use] at hgrow
    refine iff_of_false (fun heq => ?_) fun hn => hn hr
    rw [resetCCtx_resize hr] at heq
    generalize resizeWorkspace grant (S.needed slen) c.bumped (h.use (some c.self)) = r
      at hgrow heq
    rcases r with ⟨_ | _, s⟩
    · rw [andThen_false] at heq
      rw [heq] at hgrow
      exact Nat.lt_irrefl _ hgrow
    · rw [andThen_true, layOut_calls] at heq
      rw [heq] at hgrow
      exact Nat.lt_irrefl _ hgrow
  · refine iff_of_true ?_ hr
    rw [resetCCtx_keep hr, layOut_calls, Heap.calls_use]

end ZramUpgrade.Zstd
