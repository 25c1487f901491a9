import ZramUpgrade.Lib.Orbit
import ZramUpgrade.Lib.Tans
import ZramUpgrade.Zstd.Bitstream

/-!
# Zstd.FseTable — `FSE_buildCTable_wksp` and `FSE_buildDTable_internal`

Both builders spread the symbols of a normalized distribution over the `2 ^ tableLog` cells: those of
low probability from the end of the table down, the others in steps around what is left.  Without low
probabilities the symbols are laid down eight bytes at a time first, which gives the same table
(`spreadFast_eq`).  Every symbol gets as many cells as it counts (`spread_total`), whatever the tables
held before, so that the decoding table undoes the coding table (`Distribution.decode_encode`).
-/

namespace ZramUpgrade.Zstd

open Lib
open scoped List

/-! ## The tables -/

/-- `FSE_TABLESTEP`. -/
def tableStep (tableSize : ℕ) : ℕ := tableSize >>> 1 + tableSize >>> 3 + 3

/-- The cells of a symbol. -/
def cellsOf (nc : ℕ → ℤ) (s : ℕ) : ℕ := if nc s = -1 then 1 else (nc s).toNat

/-- Low probability symbols, from the end of the table down: `highThreshold`, a `U32`, and the table. -/
def layLowProb (nc : ℕ → ℤ) (maxSV1 tableSize : ℕ) (tableSymbol : ℕ → ℕ) : ℕ × (ℕ → ℕ) :=
  (List.range maxSV1).foldl
    (fun st s => if nc s = -1
      then ((st.1 + (2 ^ 32 - 1)) % 2 ^ 32, Function.update st.2 st.1 s) else st)
    (tableSize - 1, tableSymbol)

/-- The symbol `s`, `n` times from `pos`, eight bytes at a time: at `pos`, and at every eighth byte
after it below `pos + n`. -/
def layRun (spread : Mem) (pos s n : ℕ) : Mem :=
  (List.range ((n - 1) / 8 + 1)).foldl
    (fun m i => leStore m (pos + 8 * i) (s * 0x0101010101010101 % 2 ^ 64) 8) spread

/-- Lay down the symbols in order. -/
def layDown (nc : ℕ → ℤ) (maxSV1 : ℕ) (spread : Mem) : Mem × ℕ :=
  (List.range maxSV1).foldl
    (fun st s => (layRun st.1 st.2 s (nc s).toNat, st.2 + (nc s).toNat)) (spread, 0)

/-- Spread what was laid down, two cells a turn: the table and the last position. -/
def spreadFast (spread : Mem) (tableSize : ℕ) (tableSymbol : ℕ → ℕ) : (ℕ → ℕ) × ℕ :=
  (List.range (tableSize / 2)).foldl
    (fun st i =>
      (Function.update
        (Function.update st.1 (st.2 &&& (tableSize - 1)) (spread (2 * i)).toNat)
        ((st.2 + tableStep tableSize) &&& (tableSize - 1)) (spread (2 * i + 1)).toNat,
      (st.2 + 2 * tableStep tableSize) &&& (tableSize - 1)))
    (tableSymbol, 0)

/-- The next position that is not in the low probability area. -/
def nextPosition (tableSize highThreshold position : ℕ) : ℕ :=
  seek (fun p => (p + tableStep tableSize) &&& (tableSize - 1)) (· ≤ highThreshold) tableSize
    ((position + tableStep tableSize) &&& (tableSize - 1))

/-- Spread the symbols one by one: the table and the last position. -/
def spreadSlow (nc : ℕ → ℤ) (maxSV1 tableSize highThreshold : ℕ) (tableSymbol : ℕ → ℕ) :
    (ℕ → ℕ) × ℕ :=
  (List.range maxSV1).foldl
    (fun st s => (List.range (nc s).toNat).foldl
      (fun st _ => (Function.update st.1 st.2 s, nextPosition tableSize highThreshold st.2)) st)
    (tableSymbol, 0)

/-- The symbols of the cells, as the table builders lay them, and the last position. -/
def spreadSymbols (nc : ℕ → ℤ) (maxSV1 tableSize : ℕ) (spread : Mem) (tableSymbol : ℕ → ℕ) :
    (ℕ → ℕ) × ℕ :=
  let low := layLowProb nc maxSV1 tableSize tableSymbol
  if low.1 = tableSize - 1 then spreadFast (layDown nc maxSV1 spread).1 tableSize low.2
  else spreadSlow nc maxSV1 tableSize low.1 low.2

/-- `FSE_symbolCompressionTransform`. -/
structure SymbolTransform where
  deltaFindState : ℤ
  deltaNbBits : ℕ

/-- `FSE_CTable`: `stateTable` is `tableU16`. -/
structure CTable where
  tableLog : ℕ
  maxSymbolValue : ℕ
  stateTable : ℕ → ℕ
  symbolTT : ℕ → SymbolTransform

/-- Symbol start positions. -/
def cumul (nc : ℕ → ℤ) : ℕ → ℕ
  | 0 => 0
  | u + 1 => cumul nc u + cellsOf nc u

/-- One symbol of the symbol transformation table, and the new total. -/
def symbolTransform (nc : ℕ → ℤ) (tableLog : ℕ) (st : ℕ × (ℕ → SymbolTransform)) (s : ℕ) :
    ℕ × (ℕ → SymbolTransform) :=
  if nc s = 0 then
    -- filled for `FSE_getMaxNbBits`
    (st.1, Function.update st.2 s
      { st.2 s with deltaNbBits := (tableLog + 1) <<< 16 - 1 <<< tableLog })
  else if nc s = -1 ∨ nc s = 1 then
    (st.1 + 1, Function.update st.2 s ⟨(st.1 : ℤ) - 1, tableLog <<< 16 - 1 <<< tableLog⟩)
  else
    let maxBitsOut := tableLog - highbit32 ((nc s).toNat - 1)
    let minStatePlus := (nc s).toNat <<< maxBitsOut
    (st.1 + (nc s).toNat, Function.update st.2 s ⟨(st.1 : ℤ) - nc s, maxBitsOut <<< 16 - minStatePlus⟩)

/-- `FSE_BUILD_CTABLE_WORKSPACE_SIZE`. -/
def buildCTableWorkspaceSize (maxSymbolValue tableLog : ℕ) : ℕ :=
  4 * ((maxSymbolValue + 2 + 2 ^ tableLog) / 2 + 2)

/-- `FSE_buildCTable_wksp`, over the table `ct` and a workspace of `wkspSize` bytes that hold
`tableSymbol` and `spread`. -/
def buildCTable (ct : CTable) (nc : ℕ → ℤ) (maxSymbolValue tableLog : ℕ) (tableSymbol : ℕ → ℕ)
    (spread : Mem) (wkspSize : ℕ) : Except ErrorCode CTable :=
  let tableSize := 1 <<< tableLog
  let maxSV1 := maxSymbolValue + 1
  if wkspSize < buildCTableWorkspaceSize maxSymbolValue tableLog then .error .tableLogTooLarge
  else
    let cumul := Function.update (cumul nc) maxSV1 (tableSize + 1)
    let tableSymbol := (spreadSymbols nc maxSV1 tableSize spread tableSymbol).1
    .ok
      { tableLog, maxSymbolValue
        stateTable := (deal tableSymbol (fun table u next => Function.update table next (tableSize + u))
          cumul ct.stateTable tableSize).2
        symbolTT := ((List.range maxSV1).foldl (symbolTransform nc tableLog) (0, ct.symbolTT)).2 }

/-- `FSE_decode_t`. -/
structure DecodeCell where
  newState : ℕ
  symbol : ℕ
  nbBits : ℕ

/-- `FSE_DTable`. -/
structure DTable where
  tableLog : ℕ
  fastMode : Bool
  cells : ℕ → DecodeCell

/-- `FSE_BUILD_DTABLE_WKSP_SIZE`. -/
def buildDTableWorkspaceSize (tableLog maxSymbolValue : ℕ) : ℕ :=
  2 * (maxSymbolValue + 1) + 2 ^ tableLog + 8

/-- A cell of the decoding table from its `symbol` and `nextState`. -/
def decodeCell (tableLog symbol nextState : ℕ) : DecodeCell :=
  let nbBits := tableLog - highbit32 nextState
  { symbol, nbBits, newState := nextState <<< nbBits - 1 <<< tableLog }

/-- `FSE_buildDTable_internal`, over the table `dt` and a workspace of `wkspSize` bytes. -/
def buildDTable (dt : DTable) (nc : ℕ → ℤ) (maxSymbolValue tableLog : ℕ) (spread : Mem)
    (wkspSize : ℕ) : Except ErrorCode DTable :=
  let tableSize := 1 <<< tableLog
  let maxSV1 := maxSymbolValue + 1
  if wkspSize < buildDTableWorkspaceSize tableLog maxSymbolValue then .error .maxSymbolValueTooLarge
  else if 255 < maxSymbolValue then .error .maxSymbolValueTooLarge
  else if 12 < tableLog then .error .tableLogTooLarge
  else
    let low := layLowProb nc maxSV1 tableSize fun u => (dt.cells u).symbol
    let spread := spreadSymbols nc maxSV1 tableSize spread fun u => (dt.cells u).symbol
    if low.1 ≠ tableSize - 1 ∧ spread.2 ≠ 0 then .error .generic
    else .ok
      { tableLog
        -- `largeLimit` is compared with the symbols that are not of low probability
        fastMode := (List.range maxSV1).all fun s => decide (nc s = -1 ∨ nc s < 1 <<< (tableLog - 1))
        cells := (deal spread.1
          (fun cells u nextState => Function.update cells u (decodeCell tableLog (spread.1 u) nextState))
          (cellsOf nc) dt.cells tableSize).2 }

/-! ## Distributions -/

/-- A normalized distribution: the counts, -1 for a low probability, fill the table. -/
structure Distribution where
  nc : ℕ → ℤ
  maxSymbolValue : ℕ
  tableLog : ℕ
  ge : ∀ s ≤ maxSymbolValue, -1 ≤ nc s
  sum_eq : cumul nc (maxSymbolValue + 1) = 2 ^ tableLog
  log_ge : 5 ≤ tableLog
  log_le : tableLog ≤ 15
  symbol_le : maxSymbolValue ≤ 255

/-- The symbols of low probability. -/
def lowSymbols (nc : ℕ → ℤ) (maxSV1 : ℕ) : List ℕ := (List.range maxSV1).filter fun s => nc s = -1

/-- The other symbols, each as often as it counts. -/
def occurrences (nc : ℕ → ℤ) (maxSV1 : ℕ) : List ℕ :=
  (List.range maxSV1).flatMap fun s => List.replicate (nc s).toNat s

variable {nc : ℕ → ℤ} {maxSV1 tableSize s : ℕ}

theorem lowSymbols_succ (nc : ℕ → ℤ) (n : ℕ) :
    lowSymbols nc (n + 1) = lowSymbols nc n ++ if nc n = -1 then [n] else [] := by
  rw [lowSymbols, List.range_succ, List.filter_append, ← lowSymbols]
  congr 1
  by_cases h : nc n = -1 <;> simp [h]

theorem occurrences_succ (nc : ℕ → ℤ) (n : ℕ) :
    occurrences nc (n + 1) = occurrences nc n ++ List.replicate (nc n).toNat n := by
  rw [occurrences, List.range_succ, List.flatMap_append, List.flatMap_singleton, ← occurrences]

/-- Every symbol that is laid down is one of the alphabet. -/
theorem occurrences_lt {x : ℕ} (h : x ∈ occurrences nc maxSV1) : x < maxSV1 := by
  obtain ⟨y, hy, hx⟩ := List.mem_flatMap.mp h
  rw [List.eq_of_mem_replicate hx]
  exact List.mem_range.mp hy

theorem lowSymbols_lt {x : ℕ} (h : x ∈ lowSymbols nc maxSV1) : x < maxSV1 :=
  List.mem_range.mp (List.mem_filter.mp h).1

/-- The two lists have the cells of every symbol. -/
theorem count_symbols (h : s < maxSV1) :
    (lowSymbols nc maxSV1 ++ occurrences nc maxSV1).count s = cellsOf nc s := by
  induction maxSV1 with
  | zero => exact absurd h (Nat.not_lt_zero s)
  | succ n ih =>
    have hnew : (if nc n = -1 then [n] else []).count s + (List.replicate (nc n).toNat n).count s =
        if n = s then cellsOf nc n else 0 := by
      rw [List.count_replicate, cellsOf]
      by_cases hlow : nc n = -1
      · rw [if_pos hlow, if_pos hlow, hlow, List.count_singleton]
        simp
      · rw [if_neg hlow, if_neg hlow]
        simp
    have hfar : ∀ l : List ℕ, (∀ x ∈ l, x < n) → s = n → l.count s = 0 := fun l hl hs =>
      List.count_eq_zero.mpr fun hmem => by have := hl s hmem; omega
    rw [lowSymbols_succ, occurrences_succ]
    simp only [List.count_append] at ih ⊢
    by_cases hs : s < n
    · have := ih hs
      rw [if_neg (show ¬ n = s by omega)] at hnew
      omega
    · obtain rfl : s = n := by omega
      rw [if_pos rfl] at hnew
      have h1 := hfar (lowSymbols nc s) (fun x hx => lowSymbols_lt hx) rfl
      have h2 := hfar (occurrences nc s) (fun x hx => occurrences_lt hx) rfl
      omega

theorem length_symbols (nc : ℕ → ℤ) (n : ℕ) :
    (lowSymbols nc n).length + (occurrences nc n).length = cumul nc n := by
  induction n with
  | zero => rfl
  | succ n ih =>
    rw [lowSymbols_succ, occurrences_succ, List.length_append, List.length_append,
      List.length_replicate, cumul, ← ih, cellsOf]
    by_cases hlow : nc n = -1
    · simp only [hlow, if_true, List.length_singleton]
      omega
    · simp only [hlow, if_false, List.length_nil]
      omega

/-! ## Spreading -/

/-- The cells of low probability: from the end of the table down. -/
def lowWrites (nc : ℕ → ℤ) (maxSV1 tableSize : ℕ) : List (ℕ × ℕ) :=
  (lowSymbols nc maxSV1).zipIdx.map fun w => (tableSize - 1 - w.2, w.1)

theorem layLowProb_eq (nc : ℕ → ℤ) (maxSV1 : ℕ) (h31 : tableSize ≤ 2 ^ 31) (h0 : 0 < tableSize)
    (tableSymbol : ℕ → ℕ) (hlen : (lowSymbols nc maxSV1).length ≤ tableSize) :
    layLowProb nc maxSV1 tableSize tableSymbol =
      ((tableSize + (2 ^ 32 - 1) - (lowSymbols nc maxSV1).length) % 2 ^ 32,
        writeAll tableSymbol (lowWrites nc maxSV1 tableSize)) := by
  induction maxSV1 with
  | zero =>
    refine Prod.ext ?_ rfl
    show tableSize - 1 = (tableSize + (2 ^ 32 - 1) - 0) % 2 ^ 32
    omega
  | succ n ih =>
    have hsucc := lowSymbols_succ nc n
    have hstep : layLowProb nc (n + 1) tableSize tableSymbol =
        if nc n = -1 then
          (((layLowProb nc n tableSize tableSymbol).1 + (2 ^ 32 - 1)) % 2 ^ 32,
            Function.update (layLowProb nc n tableSize tableSymbol).2
              (layLowProb nc n tableSize tableSymbol).1 n)
        else layLowProb nc n tableSize tableSymbol := by
      rw [layLowProb, List.range_succ, List.foldl_append]
      rfl
    by_cases hlow : nc n = -1
    · rw [if_pos hlow] at hsucc hstep
      have hlen' : (lowSymbols nc n).length < tableSize := by
        rw [hsucc, List.length_append, List.length_singleton] at hlen
        omega
      rw [hstep, ih hlen'.le]
      refine Prod.ext ?_ ?_
      · dsimp only
        rw [hsucc, List.length_append, List.length_singleton]
        omega
      · dsimp only
        have hwrites : lowWrites nc (n + 1) tableSize =
            lowWrites nc n tableSize ++ [(tableSize - 1 - (lowSymbols nc n).length, n)] := by
          rw [lowWrites, hsucc, List.zipIdx_append, List.map_append, ← lowWrites, Nat.zero_add]
          rfl
        have hpos : (tableSize + (2 ^ 32 - 1) - (lowSymbols nc n).length) % 2 ^ 32 =
            tableSize - 1 - (lowSymbols nc n).length := by omega
        rw [hwrites, hpos, writeAll_append]
        rfl
    · rw [if_neg hlow, List.append_nil] at hsucc
      rw [if_neg hlow] at hstep
      rw [hsucc] at hlen
      rw [hstep, ih hlen, lowWrites, lowWrites, hsucc]

/-- Symbols written along an orbit, one after the other. -/
theorem foldl_orbit (next : ℕ → ℕ) (occ : List ℕ) (t : ℕ → ℕ) (p : ℕ) :
    occ.foldl (fun st s => (Function.update st.1 st.2 s, next st.2)) (t, p) =
      (writeAll t ((List.iterate next p occ.length).zip occ), next^[occ.length] p) := by
  induction occ generalizing t p with
  | nil => rfl
  | cons s occ ih =>
    rw [List.foldl_cons, ih]
    rfl

theorem spreadSlow_eq (nc : ℕ → ℤ) (maxSV1 tableSize highThreshold : ℕ) (tableSymbol : ℕ → ℕ) :
    spreadSlow nc maxSV1 tableSize highThreshold tableSymbol =
      (writeAll tableSymbol ((List.iterate (nextPosition tableSize highThreshold) 0
          (occurrences nc maxSV1).length).zip (occurrences nc maxSV1)),
        (nextPosition tableSize highThreshold)^[(occurrences nc maxSV1).length] 0) := by
  rw [← foldl_orbit, occurrences, List.foldl_flatMap, spreadSlow]
  congr 1
  funext st s
  have hrep : List.replicate (nc s).toNat s = (List.range (nc s).toNat).map fun _ => s := by
    rw [List.map_const', List.length_range]
  rw [hrep, List.foldl_map]

variable {L highThreshold : ℕ}

theorem tableStep_coprime (h : 4 ≤ L) : Nat.Coprime (2 ^ L) (tableStep (2 ^ L)) := by
  obtain ⟨k, rfl⟩ : ∃ k, L = k + 4 := ⟨L - 4, by omega⟩
  have hodd : tableStep (2 ^ (k + 4)) = 2 * (5 * 2 ^ k + 1) + 1 := by
    rw [tableStep, Nat.shiftRight_eq_div_pow, Nat.shiftRight_eq_div_pow, Nat.pow_add]
    omega
  rw [hodd]
  exact Nat.Coprime.pow_left _ (by rw [Nat.coprime_two_left]; exact ⟨_, rfl⟩)

theorem and_tableMask (p L : ℕ) : p &&& (2 ^ L - 1) = p % 2 ^ L := and_bitMask p L

/-- **The positions** up to `highThreshold` are all visited once, and the last step is back at 0. -/
theorem positions_perm (h : 4 ≤ L) (ht : highThreshold < 2 ^ L) :
    (List.iterate (nextPosition (2 ^ L) highThreshold) 0 (highThreshold + 1)).Perm
        (List.range (highThreshold + 1)) ∧
      (nextPosition (2 ^ L) highThreshold)^[highThreshold + 1] 0 = 0 := by
  obtain ⟨hperm, hback⟩ := iterate_step_perm (Nat.two_pow_pos L) (tableStep_coprime h)
  have hnext : nextPosition (2 ^ L) highThreshold = fun b =>
      seek (fun p => (p + tableStep (2 ^ L)) % 2 ^ L) (· ≤ highThreshold) (2 ^ L)
        ((b + tableStep (2 ^ L)) % 2 ^ L) := by
    funext b
    simp only [nextPosition, and_tableMask]
  obtain ⟨hlist, hend⟩ := iterate_seek (f := fun p => (p + tableStep (2 ^ L)) % 2 ^ L)
    (P := (· ≤ highThreshold)) (N := 2 ^ L) (k := 2 ^ L) (a := 0) le_rfl
    (by rw [hback]; exact Nat.zero_le _)
  have hfilter : ((List.iterate (fun p => (p + tableStep (2 ^ L)) % 2 ^ L) 0 (2 ^ L)).filter
      (· ≤ highThreshold)).Perm (List.range (highThreshold + 1)) := by
    refine (hperm.filter _).trans ?_
    rw [List.perm_ext_iff_of_nodup (List.nodup_range.filter _) List.nodup_range]
    intro x
    rw [List.mem_filter, List.mem_range, List.mem_range, decide_eq_true_iff]
    omega
  have hlen := hfilter.length_eq
  rw [List.length_range] at hlen
  rw [hlen, seek_of_pos (P := (· ≤ highThreshold)) (a := 0) (Nat.zero_le _), ← hnext] at hlist hend
  rw [hlist, hend]
  exact ⟨hfilter, hback⟩

/-! ## Eight bytes at a time -/

/-- Every byte of the word is the symbol. -/
theorem word_byte {s k : ℕ} (hs : s < 256) (hk : k < 8) :
    UInt8.ofNat (s * 0x0101010101010101 % 2 ^ 64 / 256 ^ k) = UInt8.ofNat s := by
  have hall : ∀ s < 256, ∀ k < 8, s * 0x0101010101010101 % 2 ^ 64 / 256 ^ k % 2 ^ 8 = s % 2 ^ 8 := by
    decide +kernel
  rw [← UInt8.toNat_inj, UInt8.toNat_ofNat', UInt8.toNat_ofNat']
  exact hall s hs k hk

theorem layRun_apply (spread : Mem) (pos n : ℕ) {s : ℕ} (hs : s < 256) (j : ℕ) :
    layRun spread pos s n j =
      if pos ≤ j ∧ j < pos + 8 * ((n - 1) / 8 + 1) then UInt8.ofNat s else spread j := by
  rw [layRun]
  induction (n - 1) / 8 + 1 generalizing j with
  | zero => rw [if_neg (by omega)]; rfl
  | succ k ih =>
    rw [List.range_succ, List.foldl_append, List.foldl_cons, List.foldl_nil]
    by_cases hin : pos + 8 * k ≤ j ∧ j < pos + 8 * k + 8
    · rw [leStore_in _ hin.1 hin.2, word_byte hs (by omega), if_pos (by omega)]
    · rw [leStore_out _ _ (by omega), ih]
      by_cases hold : pos ≤ j ∧ j < pos + 8 * k
      · rw [if_pos hold, if_pos (by omega)]
      · rw [if_neg hold, if_neg (by omega)]

theorem layDown_succ (nc : ℕ → ℤ) (n : ℕ) (spread : Mem) :
    layDown nc (n + 1) spread =
      (layRun (layDown nc n spread).1 (layDown nc n spread).2 n (nc n).toNat,
        (layDown nc n spread).2 + (nc n).toNat) := by
  rw [layDown, List.range_succ, List.foldl_append]
  rfl

/-- **What is laid down** is the symbols in order; at most eight bytes past them are written. -/
theorem layDown_eq (nc : ℕ → ℤ) {n : ℕ} (hn : n ≤ 256) (spread : Mem) :
    (layDown nc n spread).2 = (occurrences nc n).length ∧
      (List.range (occurrences nc n).length).map (fun i => ((layDown nc n spread).1 i).toNat) =
        occurrences nc n ∧
      ∀ j, (occurrences nc n).length + 8 ≤ j → (layDown nc n spread).1 j = spread j := by
  induction n with
  | zero => exact ⟨rfl, rfl, fun _ _ => rfl⟩
  | succ n ih =>
    obtain ⟨hpos, hlist, hkept⟩ := ih (by omega)
    have hlen : (occurrences nc (n + 1)).length = (occurrences nc n).length + (nc n).toNat := by
      rw [occurrences_succ, List.length_append, List.length_replicate]
    have happly := layRun_apply (layDown nc n spread).1 (layDown nc n spread).2 (nc n).toNat
      (show n < 256 by omega)
    rw [layDown_succ, hlen]
    refine ⟨by rw [hpos], ?_, fun j hj => ?_⟩
    · rw [List.range_add, List.map_append, List.map_map, occurrences_succ]
      congr 1
      · refine Eq.trans (List.map_congr_left fun i hi => ?_) hlist
        have := List.mem_range.mp hi
        dsimp only
        rw [happly, if_neg (by omega)]
      · refine List.eq_replicate_iff.mpr ⟨by simp, fun b hb => ?_⟩
        obtain ⟨i, hi, rfl⟩ := List.mem_map.mp hb
        have := List.mem_range.mp hi
        dsimp only [Function.comp_apply]
        rw [happly, if_pos (by omega), UInt8.toNat_ofNat', Nat.mod_eq_of_lt (by omega)]
    · dsimp only
      rw [happly, if_neg (by omega)]
      exact hkept j (by omega)

/-- Two cells a turn. -/
theorem spreadFast_half (spread : Mem) (L : ℕ) (tableSymbol : ℕ → ℕ) (k : ℕ) :
    (List.range k).foldl
      (fun st i =>
        (Function.update
          (Function.update st.1 (st.2 &&& (2 ^ L - 1)) (spread (2 * i)).toNat)
          ((st.2 + tableStep (2 ^ L)) &&& (2 ^ L - 1)) (spread (2 * i + 1)).toNat,
        (st.2 + 2 * tableStep (2 ^ L)) &&& (2 ^ L - 1)))
      (tableSymbol, 0) =
    (writeAll tableSymbol ((List.range (2 * k)).map fun i =>
      (i * tableStep (2 ^ L) % 2 ^ L, (spread i).toNat)), 2 * k * tableStep (2 ^ L) % 2 ^ L) := by
  induction k with
  | zero => rw [Nat.mul_zero, Nat.zero_mul, Nat.zero_mod]; rfl
  | succ k ih =>
    rw [List.range_succ, List.foldl_append, ih, List.foldl_cons, List.foldl_nil]
    simp only [and_tableMask, Nat.mod_mod, Nat.mod_add_mod]
    have hadd : ∀ j, 2 * k * tableStep (2 ^ L) + j * tableStep (2 ^ L) =
        (2 * k + j) * tableStep (2 ^ L) := fun j => (Nat.add_mul _ _ _).symm
    have h1 := hadd 1
    rw [Nat.one_mul] at h1
    rw [hadd 2, h1, show 2 * (k + 1) = 2 * k + 1 + 1 from rfl, List.range_succ, List.range_succ,
      List.map_append, List.map_append, writeAll_append, writeAll_append]
    rfl

/-- **The fast spread is the plain one**, where no symbol is of low probability. -/
theorem spreadFast_eq (h : 4 ≤ L) (hsv : maxSV1 ≤ 256) (hlen : (occurrences nc maxSV1).length = 2 ^ L)
    (spread : Mem) (tableSymbol : ℕ → ℕ) :
    spreadFast (layDown nc maxSV1 spread).1 (2 ^ L) tableSymbol =
      spreadSlow nc maxSV1 (2 ^ L) (2 ^ L - 1) tableSymbol := by
  obtain ⟨-, hlaid, -⟩ := layDown_eq nc hsv spread
  obtain ⟨k, hk⟩ : ∃ k, 2 ^ L = 2 * k := ⟨2 ^ (L - 1), by rw [← Nat.pow_succ']; congr 1; omega⟩
  have hpos := Nat.two_pow_pos L
  -- without an area to skip a step is a step
  have hnext : nextPosition (2 ^ L) (2 ^ L - 1) = fun p => (p + tableStep (2 ^ L)) % 2 ^ L := by
    funext p
    rw [nextPosition, and_tableMask, seek_of_pos]
    exact Nat.le_sub_one_of_lt (Nat.mod_lt _ hpos)
  have hzip : (List.range (2 ^ L)).map (fun i =>
        (i * tableStep (2 ^ L) % 2 ^ L, ((layDown nc maxSV1 spread).1 i).toNat)) =
      (List.iterate (nextPosition (2 ^ L) (2 ^ L - 1)) 0 (2 ^ L)).zip (occurrences nc maxSV1) := by
    rw [hlen] at hlaid
    rw [← hlaid, ← List.range_map_iterate, List.zip_map', hnext]
    refine List.map_congr_left fun i _ => ?_
    rw [iterate_step hpos]
  have hend : (nextPosition (2 ^ L) (2 ^ L - 1))^[2 ^ L] 0 = 2 ^ L * tableStep (2 ^ L) % 2 ^ L := by
    rw [hnext, iterate_step hpos]
  rw [spreadSlow_eq, hlen, ← hzip, hend, spreadFast]
  have hhalf : 2 ^ L / 2 = k := by omega
  rw [hhalf, spreadFast_half, ← hk]

/-! ## What the cells hold -/

namespace Distribution

variable (d : Distribution)

/-- The size of the table. -/
def size : ℕ := 2 ^ d.tableLog

def low : List ℕ := lowSymbols d.nc (d.maxSymbolValue + 1)

def occ : List ℕ := occurrences d.nc (d.maxSymbolValue + 1)

/-- The first cell of low probability is after this one. -/
def lastFree : ℕ := d.size - 1 - d.low.length

/-- The positions of the symbols that are not of low probability. -/
def positions : List ℕ := List.iterate (nextPosition d.size d.lastFree) 0 d.occ.length

/-- The cells in the order they are written. -/
def writes : List (ℕ × ℕ) :=
  lowWrites d.nc (d.maxSymbolValue + 1) d.size ++ d.positions.zip d.occ

theorem size_pos : 0 < d.size := Nat.two_pow_pos _

theorem length_eq : d.low.length + d.occ.length = d.size := by
  rw [low, occ, length_symbols, d.sum_eq, size]

theorem length_positions : d.positions.length = d.occ.length := List.length_iterate _ _ _

theorem positions_perm : d.positions.Perm (List.range d.occ.length) ∧
    (nextPosition d.size d.lastFree)^[d.occ.length] 0 = 0 := by
  have hlen := d.length_eq
  have hlog := d.log_ge
  have hsize := d.size_pos
  rw [positions]
  by_cases h0 : d.occ.length = 0
  · rw [h0]
    exact ⟨.refl _, rfl⟩
  · have hsucc : d.occ.length = d.lastFree + 1 := by unfold lastFree; omega
    rw [hsucc]
    exact Zstd.positions_perm (by omega) (by unfold lastFree; show _ < d.size; omega)

theorem writes_snd : d.writes.map Prod.snd = d.low ++ d.occ := by
  rw [writes, List.map_append, List.map_snd_zip d.length_positions.ge, lowWrites, List.map_map]
  exact congrArg (· ++ d.occ) (List.zipIdx_map_fst 0 d.low)

/-- The cells of low probability are the last ones. -/
theorem lowWrites_fst : (lowWrites d.nc (d.maxSymbolValue + 1) d.size).map Prod.fst =
    (List.range' d.occ.length d.low.length).reverse := by
  have hlen := d.length_eq
  have hsize : d.occ.length + d.low.length - 1 = d.size - 1 := by omega
  rw [List.reverse_range', hsize, List.range_eq_range', ← List.zipIdx_map_snd 0 d.low, List.map_map,
    lowWrites, List.map_map]
  rfl

/-- Every cell is written once. -/
theorem writes_perm : (d.writes.map Prod.fst).Perm (List.range d.size) := by
  rw [writes, List.map_append, List.map_fst_zip d.length_positions.le, lowWrites_fst]
  calc _ ~ List.range' d.occ.length d.low.length ++ List.range d.occ.length :=
        (List.reverse_perm _).append d.positions_perm.1
    _ ~ List.range d.occ.length ++ List.range' d.occ.length d.low.length := List.perm_append_comm
    _ = List.range d.size := by
        have happend := List.range'_append_1 (s := 0) (m := d.occ.length) (n := d.low.length)
        rw [Nat.zero_add, Nat.add_comm d.occ.length d.low.length, d.length_eq] at happend
        rw [List.range_eq_range', List.range_eq_range', happend]

/-- **Spreading a distribution** writes every cell once, and ends at position 0. -/
theorem spreadSymbols_eq (spread : Mem) (tableSymbol : ℕ → ℕ) :
    spreadSymbols d.nc (d.maxSymbolValue + 1) d.size spread tableSymbol =
      (writeAll tableSymbol d.writes, 0) := by
  have hlen := d.length_eq
  have hlog := d.log_ge
  have hsize := d.size_pos
  have h31 : d.size ≤ 2 ^ 31 := Nat.pow_le_pow_right (by decide) (le_trans d.log_le (by decide))
  have hlow := layLowProb_eq d.nc (d.maxSymbolValue + 1) h31 hsize tableSymbol
    (by show d.low.length ≤ _; omega)
  have hslow : ∀ t, spreadSlow d.nc (d.maxSymbolValue + 1) d.size d.lastFree t =
      (writeAll t (d.positions.zip d.occ), 0) := fun t => by
    rw [spreadSlow_eq, ← occ, ← positions, d.positions_perm.2]
  rw [spreadSymbols, hlow, ← low]
  dsimp only
  rw [writes, writeAll_append]
  by_cases hnone : d.low.length = 0
  · have hfree : d.lastFree = d.size - 1 := by unfold lastFree; omega
    rw [if_pos (by omega), ← hslow, hfree]
    exact spreadFast_eq (by omega) (by have := d.symbol_le; omega)
      (by show d.occ.length = d.size; omega) spread _
  · rw [if_neg (by omega)]
    by_cases hall : d.occ.length = 0
    · -- nothing is left to spread
      have hnil := List.length_eq_zero_iff.mp hall
      rw [spreadSlow_eq, ← occ, hnil, List.zip_nil_right, List.zip_nil_right, List.length_nil,
        Function.iterate_zero_apply]
    · have hht : (d.size + (2 ^ 32 - 1) - d.low.length) % 2 ^ 32 = d.lastFree := by
        unfold lastFree
        omega
      rw [hht, hslow]

/-- The symbol of a cell. -/
def symbolOf (u : ℕ) : ℕ := writeAll (fun _ => 0) d.writes u

theorem writeAll_eq_symbolOf (tableSymbol : ℕ → ℕ) {u : ℕ} (hu : u < d.size) :
    writeAll tableSymbol d.writes u = d.symbolOf u := writeAll_eq d.writes_perm _ _ hu

/-- **Every symbol has as many cells as it counts.** -/
theorem total_symbolOf {s : ℕ} (hs : s ≤ d.maxSymbolValue) :
    Tans.freq d.symbolOf d.tableLog s = cellsOf d.nc s := by
  rw [Tans.freq, total, ← count_symbols (Nat.lt_succ_of_le hs), ← low, ← occ, ← writes_snd]
  exact (map_writeAll_perm d.writes_perm _).count_eq s

theorem symbolOf_le {u : ℕ} (hu : u < d.size) : d.symbolOf u ≤ d.maxSymbolValue := by
  have hmem : d.symbolOf u ∈ d.writes.map Prod.snd :=
    (map_writeAll_perm d.writes_perm _).mem_iff.mp (List.mem_map_of_mem (List.mem_range.mpr hu))
  rw [writes_snd, List.mem_append] at hmem
  exact Nat.lt_succ_iff.mp (hmem.elim lowSymbols_lt occurrences_lt)

end Distribution

/-! ## The coding table -/

/-- The bits `FSE_encodeSymbol` gives out. -/
def CTable.nbBitsOut (ct : CTable) (value symbol : ℕ) : ℕ :=
  (value + (ct.symbolTT symbol).deltaNbBits) >>> 16

/-- The state `FSE_encodeSymbol` goes to. -/
def CTable.nextState (ct : CTable) (value symbol : ℕ) : ℕ :=
  ct.stateTable (((value >>> ct.nbBitsOut value symbol : ℕ) : ℤ) + (ct.symbolTT symbol).deltaFindState).toNat

/-- `FSE_initCState2`: the smallest state of the symbol. -/
def CTable.firstState (ct : CTable) (symbol : ℕ) : ℕ :=
  let symbolTT := ct.symbolTT symbol
  let nbBitsOut := (symbolTT.deltaNbBits + 1 <<< 15) >>> 16
  let value := nbBitsOut <<< 16 - symbolTT.deltaNbBits
  ct.stateTable (((value >>> nbBitsOut : ℕ) : ℤ) + symbolTT.deltaFindState).toNat

/-- The transformation of a symbol with cells. -/
def transformOf (nc : ℕ → ℤ) (tableLog s : ℕ) : SymbolTransform :=
  if cellsOf nc s = 1 then ⟨(cumul nc s : ℤ) - 1, tableLog <<< 16 - 1 <<< tableLog⟩
  else
    let maxBitsOut := tableLog - highbit32 (cellsOf nc s - 1)
    ⟨(cumul nc s : ℤ) - cellsOf nc s, maxBitsOut <<< 16 - cellsOf nc s <<< maxBitsOut⟩

theorem cellsOf_pos (hge : -1 ≤ nc s) (h : nc s ≠ 0) : 0 < cellsOf nc s := by
  unfold cellsOf
  split_ifs <;> omega

theorem symbolTransform_spec {n L : ℕ} (hge : ∀ s < n, -1 ≤ nc s) (tt : ℕ → SymbolTransform) :
    ((List.range n).foldl (symbolTransform nc L) (0, tt)).1 = cumul nc n ∧
      (∀ s < n, nc s ≠ 0 →
        ((List.range n).foldl (symbolTransform nc L) (0, tt)).2 s = transformOf nc L s) ∧
      ∀ s < n, nc s = 0 → (((List.range n).foldl (symbolTransform nc L) (0, tt)).2 s).deltaNbBits =
        (L + 1) <<< 16 - 1 <<< L := by
  induction n with
  | zero =>
    exact ⟨rfl, fun s hs => absurd hs (Nat.not_lt_zero s), fun s hs => absurd hs (Nat.not_lt_zero s)⟩
  | succ n ih =>
    obtain ⟨htotal, htt, habsent⟩ := ih fun s hs => hge s (by omega)
    rw [List.range_succ, List.foldl_append, List.foldl_cons, List.foldl_nil]
    set st := (List.range n).foldl (symbolTransform nc L) (0, tt) with hst
    have hn := hge n (Nat.lt_succ_self n)
    have hone : cellsOf nc n = 1 ↔ nc n = -1 ∨ nc n = 1 := by
      unfold cellsOf
      split_ifs <;> omega
    -- the step adds the cells of `n` and touches no other symbol
    have hstep : (symbolTransform nc L st n).1 = st.1 + cellsOf nc n ∧
        (nc n ≠ 0 → (symbolTransform nc L st n).2 n = transformOf nc L n) ∧
        (nc n = 0 → ((symbolTransform nc L st n).2 n).deltaNbBits = (L + 1) <<< 16 - 1 <<< L) ∧
        ∀ s ≠ n, (symbolTransform nc L st n).2 s = st.2 s := by
      unfold symbolTransform transformOf
      rw [htotal]
      by_cases h0 : nc n = 0
      · rw [if_pos h0]
        refine ⟨?_, fun h => absurd h0 h, fun _ => ?_, fun s hs => Function.update_of_ne hs _ _⟩
        · simp only [cellsOf, h0]
          rfl
        · dsimp only
          rw [Function.update_self]
      · rw [if_neg h0]
        by_cases h1 : nc n = -1 ∨ nc n = 1
        · rw [if_pos h1, if_pos (hone.mpr h1)]
          exact ⟨by rw [hone.mpr h1], fun _ => Function.update_self _ _ _, fun h => absurd h h0,
            fun s hs => Function.update_of_ne hs _ _⟩
        · have hcells : cellsOf nc n = (nc n).toNat := if_neg fun h => h1 (.inl h)
          have hcast : ((nc n).toNat : ℤ) = nc n := Int.toNat_of_nonneg (by omega)
          rw [if_neg h1, if_neg (mt hone.mp h1), hcells]
          refine ⟨rfl, fun _ => ?_, fun h => absurd h h0, fun s hs => Function.update_of_ne hs _ _⟩
          dsimp only
          rw [Function.update_self, hcast]
    obtain ⟨hfst, hcount, hfill, hkeep⟩ := hstep
    refine ⟨by rw [hfst, htotal, cumul], fun s hs hne => ?_, fun s hs h0 => ?_⟩
    · by_cases hsn : s = n
      · subst hsn
        exact hcount hne
      · rw [hkeep s hsn]
        exact htt s (by omega) hne
    · by_cases hsn : s = n
      · subst hsn
        exact hfill h0
      · rw [hkeep s hsn]
        exact habsent s (by omega) h0

theorem cumul_congr {nc' : ℕ → ℤ} {n : ℕ} (h : ∀ s < n, nc' s = nc s) : cumul nc' n = cumul nc n := by
  induction n with
  | zero => rfl
  | succ n ih =>
    rw [cumul, cumul, ih fun s hs => h s (by omega), cellsOf, cellsOf, h n (Nat.lt_succ_self n)]

theorem cumul_mono (nc : ℕ → ℤ) {a b : ℕ} (h : a ≤ b) : cumul nc a ≤ cumul nc b := by
  induction b, h using Nat.le_induction with
  | base => exact le_rfl
  | succ b _ ih => exact le_trans ih (Nat.le_add_right _ _)

/-- A symbol further up does not matter. -/
theorem cumul_update {c : ℤ} (k : ℕ) : ∀ {m : ℕ}, m ≤ k → cumul (Function.update nc k c) m = cumul nc m := by
  intro m
  induction m with
  | zero => exact fun _ => rfl
  | succ m ih =>
    intro hm
    rw [cumul, cumul, ih (by omega), cellsOf, cellsOf, Function.update_of_ne (by omega)]

/-- A symbol below takes its new cells for its old ones. -/
theorem cumul_update_lt (nc : ℕ → ℤ) {c : ℤ} {k m : ℕ} (h : k < m) :
    cumul (Function.update nc k c) m + cellsOf nc k =
      cumul nc m + cellsOf (Function.update nc k c) k := by
  induction m, h using Nat.le_induction with
  | base =>
    rw [cumul, cumul, cumul_update k le_rfl]
    omega
  | succ m h ih =>
    have hsame : cellsOf (Function.update nc k c) m = cellsOf nc m := by
      rw [cellsOf, cellsOf, Function.update_of_ne (show m ≠ k by have := Nat.lt_of_succ_le h; omega)]
    rw [cumul, cumul, hsame]
    omega

theorem cumul_zeros {a b : ℕ} (hab : a ≤ b) (h : ∀ s, a ≤ s → s < b → nc s = 0) :
    cumul nc b = cumul nc a := by
  induction b, hab using Nat.le_induction with
  | base => rfl
  | succ b hab ih =>
    rw [cumul, ih fun s h1 h2 => h s h1 (by omega), cellsOf, h b hab (by omega)]
    rfl

/-- The bits given out cut a state to a number of the symbol. -/
theorem transform_cut {L X : ℕ} (hL : L ≤ 15) (hX : Tans.State L X) (hpos : 0 < cellsOf nc s)
    (hle : cellsOf nc s ≤ 2 ^ L) :
    (X + (transformOf nc L s).deltaNbBits) >>> 16 ≤ L ∧
      cellsOf nc s ≤ X >>> ((X + (transformOf nc L s).deltaNbBits) >>> 16) ∧
      X >>> ((X + (transformOf nc L s).deltaNbBits) >>> 16) < 2 * cellsOf nc s := by
  have hlog : 2 ^ L ≤ 2 ^ 15 := Nat.pow_le_pow_right (by decide) hL
  have hsucc : 2 ^ (L + 1) = 2 * 2 ^ L := Nat.pow_succ'
  obtain ⟨hlow, hhigh⟩ := hX
  unfold transformOf
  by_cases h1 : cellsOf nc s = 1
  · have hnb : (X + (L <<< 16 - 1 <<< L)) >>> 16 = L := by
      rw [Nat.shiftLeft_eq, Nat.shiftLeft_eq, Nat.one_mul, Nat.shiftRight_eq_div_pow]
      have hL1 : 2 ^ L ≤ L * 2 ^ 16 ∨ L = 0 := by
        rcases Nat.eq_zero_or_pos L with h0 | h0
        · exact .inr h0
        · exact .inl (by omega)
      rcases hL1 with hL1 | rfl <;> omega
    rw [if_pos h1]
    dsimp only
    rw [hnb, h1, Nat.shiftRight_eq_div_pow, Nat.div_lt_iff_lt_mul (Nat.two_pow_pos L),
      Nat.le_div_iff_mul_le (Nat.two_pow_pos L)]
    omega
  · rw [if_neg h1]
    dsimp only
    set f := cellsOf nc s with hf
    set h := highbit32 (f - 1) with hh
    obtain ⟨hhl, hhu⟩ := (Nat.log2_eq_iff (by omega : f - 1 ≠ 0)).mp hh.symm
    have hhL : h < L := by
      have : f - 1 < 2 ^ L := by omega
      exact (Nat.log2_lt (by omega)).mpr this
    -- `minStatePlus` lies between `2 ^ L` and `2 ^ (L + 1)`
    have hmin : f <<< (L - h) = f * 2 ^ (L - h) := Nat.shiftLeft_eq _ _
    have hsplit : 2 ^ L = 2 ^ h * 2 ^ (L - h) := by rw [← Nat.pow_add]; congr 1; omega
    have hhalf : 2 ^ (L - h) = 2 * 2 ^ (L - h - 1) := by rw [← Nat.pow_succ']; congr 1; omega
    have hmlow : 2 ^ L < f * 2 ^ (L - h) := by
      rw [hsplit]
      exact Nat.mul_lt_mul_of_pos_right (by omega) (Nat.two_pow_pos _)
    have hmhigh : f * 2 ^ (L - h) ≤ 2 * 2 ^ L := by
      rw [hsplit, ← Nat.mul_assoc, ← Nat.pow_succ']
      exact Nat.mul_le_mul_right _ (by omega)
    rw [hmin, Nat.shiftLeft_eq]
    by_cases hge : f * 2 ^ (L - h) ≤ X
    · have hnb : (X + ((L - h) * 2 ^ 16 - f * 2 ^ (L - h))) >>> 16 = L - h := by
        rw [Nat.shiftRight_eq_div_pow]
        omega
      rw [hnb, Nat.shiftRight_eq_div_pow, Nat.div_lt_iff_lt_mul (Nat.two_pow_pos _),
        Nat.le_div_iff_mul_le (Nat.two_pow_pos _), Nat.mul_assoc]
      refine ⟨Nat.sub_le _ _, hge, ?_⟩
      omega
    · have hnb : (X + ((L - h) * 2 ^ 16 - f * 2 ^ (L - h))) >>> 16 = L - h - 1 := by
        rw [Nat.shiftRight_eq_div_pow]
        omega
      rw [hnb, Nat.shiftRight_eq_div_pow, Nat.div_lt_iff_lt_mul (Nat.two_pow_pos _),
        Nat.le_div_iff_mul_le (Nat.two_pow_pos _), Nat.mul_right_comm, ← hhalf, Nat.mul_comm _ f]
      have hfs : f * 2 ^ (L - h - 1) ≤ 2 ^ L := by
        rw [hsplit, hhalf, ← Nat.mul_assoc, ← Nat.pow_succ]
        exact Nat.mul_le_mul_right _ (by omega)
      exact ⟨by omega, by omega, by omega⟩

namespace Distribution

variable (d : Distribution)

/-- `FSE_buildCTable_wksp` of a distribution. -/
theorem buildCTable_ok (ct0 : CTable) (tableSymbol : ℕ → ℕ) (spread : Mem) {wkspSize : ℕ}
    (hwksp : buildCTableWorkspaceSize d.maxSymbolValue d.tableLog ≤ wkspSize) :
    ∃ ct, buildCTable ct0 d.nc d.maxSymbolValue d.tableLog tableSymbol spread wkspSize = .ok ct := by
  rw [buildCTable, if_neg (Nat.not_lt.mpr hwksp)]
  exact ⟨_, rfl⟩

/-- What the coder uses of the coding table. -/
structure CodedBy (ct : CTable) : Prop where
  tableLog : ct.tableLog = d.tableLog
  symbol_eq : ct.maxSymbolValue = d.maxSymbolValue
  stateTable : ∀ u < d.size,
    ct.stateTable (cumul d.nc (d.symbolOf u) + rank d.symbolOf u) = d.size + u
  symbolTT : ∀ s ≤ d.maxSymbolValue, d.nc s ≠ 0 → ct.symbolTT s = transformOf d.nc d.tableLog s
  absent : ∀ s ≤ d.maxSymbolValue, d.nc s = 0 →
    (ct.symbolTT s).deltaNbBits = (d.tableLog + 1) <<< 16 - 1 <<< d.tableLog

/-- The places of two cells in the sorted table differ. -/
theorem place_inj {u v : ℕ} (hu : u < d.size) (hv : v < d.size)
    (h : cumul d.nc (d.symbolOf u) + rank d.symbolOf u = cumul d.nc (d.symbolOf v) + rank d.symbolOf v) :
    u = v := by
  have hbelow : ∀ u v, u < d.size → d.symbolOf u < d.symbolOf v →
      cumul d.nc (d.symbolOf u) + rank d.symbolOf u < cumul d.nc (d.symbolOf v) := fun u v hu huv => by
    have hrank : rank d.symbolOf u < cellsOf d.nc (d.symbolOf u) := by
      rw [← d.total_symbolOf (d.symbolOf_le hu)]
      exact rank_lt _ hu
    calc _ < cumul d.nc (d.symbolOf u + 1) := Nat.add_lt_add_left hrank _
      _ ≤ _ := cumul_mono _ huv
  rcases Nat.lt_trichotomy (d.symbolOf u) (d.symbolOf v) with hlt | heq | hgt
  · have := hbelow u v hu hlt
    omega
  · rw [heq] at h
    exact rank_inj heq (by omega)
  · have := hbelow v u hv hgt
    omega

theorem buildCTable_spec {ct0 ct : CTable} {tableSymbol : ℕ → ℕ} {spread : Mem} {wkspSize : ℕ}
    (h : buildCTable ct0 d.nc d.maxSymbolValue d.tableLog tableSymbol spread wkspSize = .ok ct) :
    d.CodedBy ct := by
  rw [buildCTable] at h
  split_ifs at h
  rw [Except.ok.injEq] at h
  subst h
  have hsize : 1 <<< d.tableLog = d.size := by rw [Nat.shiftLeft_eq, Nat.one_mul, size]
  have hkey : ∀ u < d.size, (spreadSymbols d.nc (d.maxSymbolValue + 1) (1 <<< d.tableLog) spread
      tableSymbol).1 u = d.symbolOf u := fun u hu => by
    rw [hsize, d.spreadSymbols_eq]
    exact d.writeAll_eq_symbolOf _ hu
  have htt := symbolTransform_spec (n := d.maxSymbolValue + 1) (L := d.tableLog)
    (fun s hs => d.ge s (by omega)) ct0.symbolTT
  refine ⟨rfl, rfl, fun u hu => ?_, fun s hs hne => htt.2.1 s (by omega) hne,
    fun s hs h0 => htt.2.2 s (by omega) h0⟩
  · rw [hsize] at hkey
    -- the table is written at the places of the cells
    have hplace : ∀ v ∈ List.range d.size,
        (Function.update (cumul d.nc) (d.maxSymbolValue + 1) (d.size + 1)
            ((spreadSymbols d.nc (d.maxSymbolValue + 1) d.size spread tableSymbol).1 v) +
          rank (spreadSymbols d.nc (d.maxSymbolValue + 1) d.size spread tableSymbol).1 v, d.size + v) =
        (cumul d.nc (d.symbolOf v) + rank d.symbolOf v, d.size + v) := fun v hv => by
      have hv := List.mem_range.mp hv
      have hle := d.symbolOf_le hv
      rw [hkey v hv, rank_congr hkey hv, Function.update_of_ne (by omega)]
    dsimp only
    rw [hsize, deal_writeAll _ (fun _ next => next) (fun v _ => d.size + v), List.map_congr_left hplace]
    have hmem : (cumul d.nc (d.symbolOf u) + rank d.symbolOf u, d.size + u) ∈ (List.range d.size).map
        (fun v => (cumul d.nc (d.symbolOf v) + rank d.symbolOf v, d.size + v)) :=
      List.mem_map.mpr ⟨u, List.mem_range.mpr hu, rfl⟩
    refine writeAll_mem ?_ hmem _
    rw [List.map_map]
    exact List.Nodup.map_on (fun v hv w hw hvw => d.place_inj (List.mem_range.mp hv)
      (List.mem_range.mp hw) hvw) List.nodup_range

variable {d} {ct : CTable} {s x : ℕ}

theorem cellsOf_le (d : Distribution) {s : ℕ} (hs : s ≤ d.maxSymbolValue) :
    cellsOf d.nc s ≤ 2 ^ d.tableLog := by
  have := cumul_mono d.nc (Nat.succ_le_succ hs)
  rw [d.sum_eq, cumul] at this
  omega

/-- The place of the cell of `s` with the number `n`, as the coder computes it. -/
theorem CodedBy.stateAt (h : d.CodedBy ct) (hs : s ≤ d.maxSymbolValue) (hne : d.nc s ≠ 0) {u n : ℕ}
    (hu : u < d.size) (hsym : d.symbolOf u = s) (hrank : rank d.symbolOf u = n - cellsOf d.nc s)
    (hn : cellsOf d.nc s ≤ n) :
    ct.stateTable ((n : ℤ) + (ct.symbolTT s).deltaFindState).toNat = d.size + u := by
  have hdelta : (ct.symbolTT s).deltaFindState = (cumul d.nc s : ℤ) - cellsOf d.nc s := by
    rw [h.symbolTT s hs hne, transformOf]
    split_ifs with h1
    · rw [h1]
      rfl
    · rfl
  have hplace : ((n : ℤ) + (ct.symbolTT s).deltaFindState).toNat =
      cumul d.nc (d.symbolOf u) + rank d.symbolOf u := by
    rw [hdelta, hsym, hrank]
    omega
  rw [hplace, h.stateTable u hu]

/-- **A step of the coder** codes the symbol. -/
theorem CodedBy.codes (h : d.CodedBy ct) (hs : s ≤ d.maxSymbolValue) (hne : d.nc s ≠ 0)
    (hx : Tans.State d.tableLog x) :
    ct.nbBitsOut x s ≤ d.tableLog ∧
      Tans.Codes d.symbolOf d.tableLog x s (ct.nbBitsOut x s) (ct.nextState x s) := by
  have hfreq := d.total_symbolOf hs
  obtain ⟨hnb, hlow, hhigh⟩ := transform_cut d.log_le hx (cellsOf_pos (d.ge s hs) hne) (d.cellsOf_le hs)
  rw [← h.symbolTT s hs hne] at hnb hlow hhigh
  obtain ⟨u, hu, hsym, hrank, hcodes⟩ := Tans.exists_codes d.symbolOf (ct.nbBitsOut x s) (s := s) hx
    (by rw [hfreq]; exact hlow) (by rw [hfreq]; exact hhigh)
  have hstate : ct.nextState x s = 2 ^ d.tableLog + u :=
    h.stateAt hs hne hu hsym (by rw [hrank, hfreq]) hlow
  rw [hstate]
  exact ⟨hnb, hcodes⟩

/-- **The first state** of a symbol is its cell with the smallest number. -/
theorem CodedBy.firstState (h : d.CodedBy ct) (hlog : d.tableLog ≤ 14) (hs : s ≤ d.maxSymbolValue)
    (hne : d.nc s ≠ 0) :
    ∃ u < d.size, ct.firstState s = d.size + u ∧ d.symbolOf u = s ∧
      Tans.number d.symbolOf d.tableLog u = cellsOf d.nc s := by
  have hpos := cellsOf_pos (d.ge s hs) hne
  have hfreq := d.total_symbolOf hs
  have hle := d.cellsOf_le hs
  have hlogs : 2 ^ d.tableLog ≤ 2 ^ 14 := Nat.pow_le_pow_right (by decide) hlog
  obtain ⟨u, hu, hsym, hrank⟩ := exists_rank d.symbolOf (k := s) (n := 2 ^ d.tableLog) (r := 0)
    (by unfold Tans.freq at hfreq; omega)
  -- the rounding gives back `maxBitsOut`, and `value` is `minStatePlus`
  have hvalue : ∃ m, (ct.symbolTT s).deltaNbBits = m * 2 ^ 16 - cellsOf d.nc s * 2 ^ m ∧
      cellsOf d.nc s * 2 ^ m ≤ m * 2 ^ 16 ∧ cellsOf d.nc s * 2 ^ m ≤ 2 ^ 15 := by
    rw [h.symbolTT s hs hne, transformOf]
    have h5 := d.log_ge
    split_ifs with h1
    · rw [h1]
      refine ⟨d.tableLog, ?_, by omega, by omega⟩
      dsimp only
      rw [Nat.shiftLeft_eq, Nat.shiftLeft_eq]
    · set f := cellsOf d.nc s with hf
      set m := highbit32 (f - 1) with hm
      obtain ⟨hml, hmu⟩ := (Nat.log2_eq_iff (by omega : f - 1 ≠ 0)).mp hm.symm
      have hmL : m < d.tableLog := (Nat.log2_lt (by omega)).mpr (by omega : f - 1 < 2 ^ d.tableLog)
      have hsplit : 2 ^ d.tableLog = 2 ^ m * 2 ^ (d.tableLog - m) := by
        rw [← Nat.pow_add]
        congr 1
        omega
      have hhigh : f * 2 ^ (d.tableLog - m) ≤ 2 * 2 ^ d.tableLog := by
        rw [hsplit, ← Nat.mul_assoc, ← Nat.pow_succ']
        exact Nat.mul_le_mul_right _ (by omega)
      refine ⟨d.tableLog - m, ?_, by omega, by omega⟩
      dsimp only
      rw [Nat.shiftLeft_eq, Nat.shiftLeft_eq]
  obtain ⟨m, hdelta, hle16, hle15⟩ := hvalue
  have hnb : ((ct.symbolTT s).deltaNbBits + 1 <<< 15) >>> 16 = m := by
    have hp := Nat.mul_pos hpos (Nat.two_pow_pos m)
    rw [hdelta, Nat.shiftRight_eq_div_pow, Nat.shiftLeft_eq]
    omega
  have hcut : (m <<< 16 - (ct.symbolTT s).deltaNbBits) >>> m = cellsOf d.nc s := by
    rw [Nat.shiftRight_eq_div_pow, hdelta, Nat.shiftLeft_eq, Nat.sub_sub_self hle16,
      Nat.mul_div_cancel _ (Nat.two_pow_pos m)]
  refine ⟨u, hu, ?_, hsym, ?_⟩
  · rw [CTable.firstState, hnb, hcut]
    exact h.stateAt hs hne hu hsym (by rw [hrank, Nat.sub_self]) le_rfl
  · rw [Tans.number, hsym, hfreq, hrank, Nat.add_zero]

/-! ## The decoding table -/

/-- What the decoder uses of the decoding table. -/
structure DecodedBy (d : Distribution) (dt : DTable) : Prop where
  tableLog : dt.tableLog = d.tableLog
  fastMode : dt.fastMode = true → ∀ s ≤ d.maxSymbolValue, cellsOf d.nc s < 2 ^ (d.tableLog - 1)
  symbol : ∀ u < d.size, (dt.cells u).symbol = d.symbolOf u
  nbBits : ∀ u < d.size,
    (dt.cells u).nbBits = Tans.width d.tableLog (Tans.number d.symbolOf d.tableLog u)
  newState : ∀ u < d.size,
    (dt.cells u).newState = Tans.base d.tableLog (Tans.number d.symbolOf d.tableLog u)

theorem buildDTable_spec (d : Distribution) (hlog : d.tableLog ≤ 12) (dt0 : DTable) (spread : Mem)
    {wkspSize : ℕ} (hwksp : buildDTableWorkspaceSize d.tableLog d.maxSymbolValue ≤ wkspSize) :
    ∃ dt, buildDTable dt0 d.nc d.maxSymbolValue d.tableLog spread wkspSize = .ok dt ∧
      d.DecodedBy dt := by
  have hsize : 1 <<< d.tableLog = d.size := by rw [Nat.shiftLeft_eq, Nat.one_mul, size]
  have hsym := d.symbol_le
  rw [buildDTable, hsize, if_neg (Nat.not_lt.mpr hwksp), if_neg (by omega), if_neg (by omega),
    d.spreadSymbols_eq]
  dsimp only
  rw [if_neg fun h => h.2 rfl]
  have hkey : ∀ u < d.size, writeAll (fun u => (dt0.cells u).symbol) d.writes u = d.symbolOf u :=
    fun u hu => d.writeAll_eq_symbolOf _ hu
  have hcell : ∀ u < d.size, (deal (writeAll (fun u => (dt0.cells u).symbol) d.writes)
      (fun cells u nextState => Function.update cells u
        (decodeCell d.tableLog (writeAll (fun u => (dt0.cells u).symbol) d.writes u) nextState))
      (cellsOf d.nc) dt0.cells d.size).2 u =
      decodeCell d.tableLog (d.symbolOf u) (Tans.number d.symbolOf d.tableLog u) := fun u hu => by
    rw [deal_writeAll _ (fun u _ => u) (fun u next => decodeCell d.tableLog
      (writeAll (fun u => (dt0.cells u).symbol) d.writes u) next)]
    refine writeAll_mem ?_ (List.mem_map.mpr ⟨u, List.mem_range.mpr hu, ?_⟩) _
    · rw [List.map_map]
      exact List.Nodup.map (fun _ _ h => h) List.nodup_range
    · rw [hkey u hu, rank_congr hkey hu, Tans.number, d.total_symbolOf (d.symbolOf_le hu)]
  refine ⟨_, rfl, rfl, fun hfast s hs => ?_, fun u hu => congrArg DecodeCell.symbol (hcell u hu),
    fun u hu => congrArg DecodeCell.nbBits (hcell u hu), fun u hu => ?_⟩
  · dsimp only at hfast
    rw [List.all_eq_true] at hfast
    have hlt := of_decide_eq_true (hfast s (List.mem_range.mpr (by omega)))
    rw [Nat.shiftLeft_eq, Nat.one_mul] at hlt
    have h5 := d.log_ge
    have h16 : 2 ^ 4 ≤ 2 ^ (d.tableLog - 1) := Nat.pow_le_pow_right (by decide) (by omega)
    unfold cellsOf
    split_ifs <;> omega
  · refine (congrArg DecodeCell.newState (hcell u hu)).trans ?_
    show _ <<< _ - 1 <<< d.tableLog = _ <<< _ - 2 ^ d.tableLog
    rw [Nat.shiftLeft_eq 1, Nat.one_mul]
    rfl

/-! ## The tables are inverse -/

variable {d : Distribution} {ct : CTable} {dt : DTable} {s x : ℕ}

/-- **The decoder undoes the coder**, and is told of every symbol by at least one bit in fast mode. -/
theorem DecodedBy.inverse (hd : d.DecodedBy dt) (hc : d.CodedBy ct) (hs : s ≤ d.maxSymbolValue)
    (hne : d.nc s ≠ 0) (hx : Tans.State d.tableLog x) :
    Tans.State d.tableLog (ct.nextState x s) ∧ ct.nbBitsOut x s ≤ d.tableLog ∧
      (dt.cells (ct.nextState x s - d.size)).symbol = s ∧
      (dt.cells (ct.nextState x s - d.size)).nbBits = ct.nbBitsOut x s ∧
      (dt.cells (ct.nextState x s - d.size)).newState + x % 2 ^ ct.nbBitsOut x s = x - d.size := by
  obtain ⟨hnb, hcodes⟩ := hc.codes hs hne hx
  obtain ⟨hwidth, hbase⟩ := hcodes.inverse hnb
  have hstate := hcodes.state
  have hu : ct.nextState x s - d.size < d.size := by
    have := hstate.1
    have := hstate.2
    have hsucc : 2 ^ (d.tableLog + 1) = 2 * 2 ^ d.tableLog := Nat.pow_succ'
    unfold size
    omega
  refine ⟨hstate, hnb, ?_, ?_, ?_⟩
  · rw [hd.symbol _ hu]
    exact hcodes.sym_eq
  · rw [hd.nbBits _ hu]
    exact hwidth
  · rw [hd.newState _ hu]
    exact hbase

/-- In fast mode every cell takes at least one bit. -/
theorem DecodedBy.nbBits_pos (hd : d.DecodedBy dt) (hfast : dt.fastMode = true) {u : ℕ} (hu : u < d.size) :
    0 < (dt.cells u).nbBits := by
  have hfreq := d.total_symbolOf (d.symbolOf_le hu)
  have hhalf := hd.fastMode hfast _ (d.symbolOf_le hu)
  obtain ⟨hlow, hhigh⟩ := Tans.number_bounds d.symbolOf (L := d.tableLog) hu
  have hrank := rank_lt d.symbolOf hu
  have h5 := d.log_ge
  have hpow : 2 ^ d.tableLog = 2 * 2 ^ (d.tableLog - 1) := by
    rw [← Nat.pow_succ']
    congr 1
    omega
  rw [hd.nbBits u hu]
  rw [hfreq] at hlow hhigh
  have hcells : 0 < cellsOf d.nc (d.symbolOf u) := by
    rw [← hfreq]
    exact Nat.lt_of_le_of_lt (Nat.zero_le _) hrank
  exact Tans.width_pos (by omega) (by omega)

end Distribution

/-- **The tables of a distribution**, over whatever the tables and workspaces held: both builders
succeed, and for every symbol that counts and every state, the cell the coder goes to names the symbol
and the number of bits given out, and leads the decoder back with them. -/
theorem fse_tables_inverse (d : Distribution) (hlog : d.tableLog ≤ 12) (ct0 : CTable) (dt0 : DTable)
    (tableSymbol : ℕ → ℕ) (cSpread dSpread : Mem) {cWksp dWksp : ℕ}
    (hcw : buildCTableWorkspaceSize d.maxSymbolValue d.tableLog ≤ cWksp)
    (hdw : buildDTableWorkspaceSize d.tableLog d.maxSymbolValue ≤ dWksp) :
    ∃ ct dt, buildCTable ct0 d.nc d.maxSymbolValue d.tableLog tableSymbol cSpread cWksp = .ok ct ∧
      buildDTable dt0 d.nc d.maxSymbolValue d.tableLog dSpread dWksp = .ok dt ∧
      ∀ s ≤ d.maxSymbolValue, d.nc s ≠ 0 → ∀ x, Tans.State d.tableLog x →
        Tans.State d.tableLog (ct.nextState x s) ∧
        (dt.cells (ct.nextState x s - 2 ^ d.tableLog)).symbol = s ∧
        (dt.cells (ct.nextState x s - 2 ^ d.tableLog)).nbBits = ct.nbBitsOut x s ∧
        (dt.cells (ct.nextState x s - 2 ^ d.tableLog)).newState + x % 2 ^ ct.nbBitsOut x s =
          x - 2 ^ d.tableLog := by
  obtain ⟨ct, hct⟩ := d.buildCTable_ok ct0 tableSymbol cSpread hcw
  obtain ⟨dt, hdt, hd⟩ := d.buildDTable_spec hlog dt0 dSpread hdw
  refine ⟨ct, dt, hct, hdt, fun s hs hne x hx => ?_⟩
  obtain ⟨hstate, -, hsym, hnb, hback⟩ := hd.inverse (d.buildCTable_spec hct) hs hne hx
  exact ⟨hstate, hsym, hnb, hback⟩

/-- Three symbols over 32 cells, the last of low probability. -/
def threeSymbols : Distribution where
  nc s := if s = 0 then 20 else if s = 1 then 11 else if s = 2 then -1 else 0
  maxSymbolValue := 2
  tableLog := 5
  ge s hs := by interval_cases s <;> decide
  sum_eq := by decide
  log_ge := by decide
  log_le := by decide
  symbol_le := by decide

theorem fse_tables_inverse_three :
    ∃ ct dt, buildCTable ⟨0, 0, fun _ => 0, fun _ => ⟨0, 0⟩⟩ threeSymbols.nc 2 5 (fun _ => 0)
        (fun _ => 0) 100 = .ok ct ∧
      buildDTable ⟨0, true, fun _ => ⟨0, 0, 0⟩⟩ threeSymbols.nc 2 5 (fun _ => 0) 100 = .ok dt ∧
      (dt.cells (ct.nextState 40 2 - 32)).symbol = 2 := by
  obtain ⟨ct, dt, hct, hdt, h⟩ := fse_tables_inverse threeSymbols (by decide)
    ⟨0, 0, fun _ => 0, fun _ => ⟨0, 0⟩⟩ ⟨0, true, fun _ => ⟨0, 0, 0⟩⟩ (fun _ => 0) (fun _ => 0)
    (fun _ => 0) (show buildCTableWorkspaceSize 2 5 ≤ 100 by decide)
    (show buildDTableWorkspaceSize 5 2 ≤ 100 by decide)
  exact ⟨ct, dt, hct, hdt, (h 2 le_rfl (by decide) 40 (by unfold Tans.State; decide)).2.1⟩

end ZramUpgrade.Zstd
