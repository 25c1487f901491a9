import ZramUpgrade.Zstd.Fse
import ZramUpgrade.Zstd.SeqStore

/-!
# Zstd.SeqTable — the decoding tables of sequences

`ZSTD_buildFSETable` spreads the symbols as the FSE table builders do, and puts the base and the extra
bits of its symbol in every cell; the default tables are what it builds of the default counts
(`defaultDTables_spec`).  A table of one symbol has one cell, and coding with it costs nothing.  Either
way coder and decoder keep in step: `Coding`.
-/

namespace ZramUpgrade.Zstd

open Lib

/-- `ZSTD_seqSymbol`. -/
structure SeqSymbol where
  nextState : ℕ
  nbAdditionalBits : ℕ
  nbBits : ℕ
  baseValue : ℕ
  deriving DecidableEq

/-- A table of `ZSTD_seqSymbol`, of which the first is a `ZSTD_seqSymbol_header`. -/
structure SeqTable where
  tableLog : ℕ
  fastMode : Bool
  cells : ℕ → SeqSymbol

/-- A cell from its symbol and `nextState`. -/
def seqCell (tableLog : ℕ) (baseValue nbAdditionalBits : ℕ → ℕ) (symbol nextState : ℕ) : SeqSymbol :=
  let nbBits := tableLog - highbit32 nextState
  { nbBits, nextState := nextState <<< nbBits - 1 <<< tableLog
    nbAdditionalBits := nbAdditionalBits symbol, baseValue := baseValue symbol }

/-- `ZSTD_buildFSETable_body`, over the table `dt` and a workspace that holds `spread`. -/
def buildFSETable (dt : SeqTable) (nc : ℕ → ℤ) (maxSymbolValue : ℕ) (baseValue nbAdditionalBits : ℕ → ℕ)
    (tableLog : ℕ) (spread : Mem) : SeqTable :=
  let tableSize := 1 <<< tableLog
  let maxSV1 := maxSymbolValue + 1
  -- the symbols are spread in `baseValue`
  let symbols := (spreadSymbols nc maxSV1 tableSize spread fun u => (dt.cells u).baseValue).1
  { tableLog
    fastMode := (List.range maxSV1).all fun s => decide (nc s = -1 ∨ nc s < 1 <<< (tableLog - 1))
    cells := (deal symbols
      (fun cells u nextState =>
        Function.update cells u (seqCell tableLog baseValue nbAdditionalBits (symbols u) nextState))
      (cellsOf nc) dt.cells tableSize).2 }

/-- `ZSTD_buildSeqTable_rle`. -/
def buildSeqTableRle (dt : SeqTable) (baseValue nbAddBits : ℕ) : SeqTable :=
  { tableLog := 0, fastMode := false, cells := Function.update dt.cells 0 ⟨0, nbAddBits, 0, baseValue⟩ }

/-- `FSE_buildCTable_rle`. -/
def buildCTableRle (ct : CTable) (symbolValue : ℕ) : CTable :=
  { tableLog := 0, maxSymbolValue := symbolValue
    stateTable := Function.update (Function.update ct.stateTable 0 0) 1 0
    symbolTT := Function.update ct.symbolTT symbolValue ⟨0, 0⟩ }

/-! ## The default tables -/

/-- `LL_defaultNorm`. -/
def llDefaultNorm (s : ℕ) : ℤ :=
  [4, 3, 2, 2, 2, 2, 2, 2, 2, 2, 2, 2, 2, 1, 1, 1, 2, 2, 2, 2, 2, 2, 2, 2, 2, 3, 2, 1, 1, 1, 1, 1,
    -1, -1, -1, -1].getD s 0

/-- `ML_defaultNorm`. -/
def mlDefaultNorm (s : ℕ) : ℤ :=
  [1, 4, 3, 2, 2, 2, 2, 2, 2, 1, 1, 1, 1, 1, 1, 1, 1, 1, 1, 1, 1, 1, 1, 1, 1, 1, 1, 1, 1, 1, 1, 1,
    1, 1, 1, 1, 1, 1, 1, 1, 1, 1, 1, 1, 1, 1, -1, -1, -1, -1, -1, -1, -1].getD s 0

/-- `OF_defaultNorm`, up to `DefaultMaxOff`. -/
def ofDefaultNorm (s : ℕ) : ℤ :=
  [1, 1, 1, 1, 1, 1, 2, 2, 2, 1, 1, 1, 1, 1, 1, 1, 1, 1, 1, 1, 1, 1, 1, 1,
    -1, -1, -1, -1, -1].getD s 0

/-- `LL_defaultDTable`. -/
def llDefaultCells : List SeqSymbol :=
  [⟨0, 0, 4, 0⟩, ⟨16, 0, 4, 0⟩, ⟨32, 0, 5, 1⟩, ⟨0, 0, 5, 3⟩, ⟨0, 0, 5, 4⟩, ⟨0, 0, 5, 6⟩, ⟨0, 0, 5, 7⟩,
    ⟨0, 0, 5, 9⟩, ⟨0, 0, 5, 10⟩, ⟨0, 0, 5, 12⟩, ⟨0, 0, 6, 14⟩, ⟨0, 1, 5, 16⟩, ⟨0, 1, 5, 20⟩,
    ⟨0, 1, 5, 22⟩, ⟨0, 2, 5, 28⟩, ⟨0, 3, 5, 32⟩, ⟨0, 4, 5, 48⟩, ⟨32, 6, 5, 64⟩, ⟨0, 7, 5, 128⟩,
    ⟨0, 8, 6, 256⟩, ⟨0, 10, 6, 1024⟩, ⟨0, 12, 6, 4096⟩, ⟨32, 0, 4, 0⟩, ⟨0, 0, 4, 1⟩, ⟨0, 0, 5, 2⟩,
    ⟨32, 0, 5, 4⟩, ⟨0, 0, 5, 5⟩, ⟨32, 0, 5, 7⟩, ⟨0, 0, 5, 8⟩, ⟨32, 0, 5, 10⟩, ⟨0, 0, 5, 11⟩,
    ⟨0, 0, 6, 13⟩, ⟨32, 1, 5, 16⟩, ⟨0, 1, 5, 18⟩, ⟨32, 1, 5, 22⟩, ⟨0, 2, 5, 24⟩, ⟨32, 3, 5, 32⟩,
    ⟨0, 3, 5, 40⟩, ⟨0, 6, 4, 64⟩, ⟨16, 6, 4, 64⟩, ⟨32, 7, 5, 128⟩, ⟨0, 9, 6, 512⟩, ⟨0, 11, 6, 2048⟩,
    ⟨48, 0, 4, 0⟩, ⟨16, 0, 4, 1⟩, ⟨32, 0, 5, 2⟩, ⟨32, 0, 5, 3⟩, ⟨32, 0, 5, 5⟩, ⟨32, 0, 5, 6⟩,
    ⟨32, 0, 5, 8⟩, ⟨32, 0, 5, 9⟩, ⟨32, 0, 5, 11⟩, ⟨32, 0, 5, 12⟩, ⟨0, 0, 6, 15⟩, ⟨32, 1, 5, 18⟩,
    ⟨32, 1, 5, 20⟩, ⟨32, 2, 5, 24⟩, ⟨32, 2, 5, 28⟩, ⟨32, 3, 5, 40⟩, ⟨32, 4, 5, 48⟩, ⟨0, 16, 6, 65536⟩,
    ⟨0, 15, 6, 32768⟩, ⟨0, 14, 6, 16384⟩, ⟨0, 13, 6, 8192⟩]

/-- `OF_defaultDTable`. -/
def ofDefaultCells : List SeqSymbol :=
  [⟨0, 0, 5, 0⟩, ⟨0, 6, 4, 61⟩, ⟨0, 9, 5, 509⟩, ⟨0, 15, 5, 32765⟩, ⟨0, 21, 5, 2097149⟩, ⟨0, 3, 5, 5⟩,
    ⟨0, 7, 4, 125⟩, ⟨0, 12, 5, 4093⟩, ⟨0, 18, 5, 262141⟩, ⟨0, 23, 5, 8388605⟩, ⟨0, 5, 5, 29⟩,
    ⟨0, 8, 4, 253⟩, ⟨0, 14, 5, 16381⟩, ⟨0, 20, 5, 1048573⟩, ⟨0, 2, 5, 1⟩, ⟨16, 7, 4, 125⟩,
    ⟨0, 11, 5, 2045⟩, ⟨0, 17, 5, 131069⟩, ⟨0, 22, 5, 4194301⟩, ⟨0, 4, 5, 13⟩, ⟨16, 8, 4, 253⟩,
    ⟨0, 13, 5, 8189⟩, ⟨0, 19, 5, 524285⟩, ⟨0, 1, 5, 1⟩, ⟨16, 6, 4, 61⟩, ⟨0, 10, 5, 1021⟩,
    ⟨0, 16, 5, 65533⟩, ⟨0, 28, 5, 268435453⟩, ⟨0, 27, 5, 134217725⟩, ⟨0, 26, 5, 67108861⟩,
    ⟨0, 25, 5, 33554429⟩, ⟨0, 24, 5, 16777213⟩]

/-- `ML_defaultDTable`. -/
def mlDefaultCells : List SeqSymbol :=
  [⟨0, 0, 6, 3⟩, ⟨0, 0, 4, 4⟩, ⟨32, 0, 5, 5⟩, ⟨0, 0, 5, 6⟩, ⟨0, 0, 5, 8⟩, ⟨0, 0, 5, 9⟩, ⟨0, 0, 5, 11⟩,
    ⟨0, 0, 6, 13⟩, ⟨0, 0, 6, 16⟩, ⟨0, 0, 6, 19⟩, ⟨0, 0, 6, 22⟩, ⟨0, 0, 6, 25⟩, ⟨0, 0, 6, 28⟩,
    ⟨0, 0, 6, 31⟩, ⟨0, 0, 6, 34⟩, ⟨0, 1, 6, 37⟩, ⟨0, 1, 6, 41⟩, ⟨0, 2, 6, 47⟩, ⟨0, 3, 6, 59⟩,
    ⟨0, 4, 6, 83⟩, ⟨0, 7, 6, 131⟩, ⟨0, 9, 6, 515⟩, ⟨16, 0, 4, 4⟩, ⟨0, 0, 4, 5⟩, ⟨32, 0, 5, 6⟩,
    ⟨0, 0, 5, 7⟩, ⟨32, 0, 5, 9⟩, ⟨0, 0, 5, 10⟩, ⟨0, 0, 6, 12⟩, ⟨0, 0, 6, 15⟩, ⟨0, 0, 6, 18⟩,
    ⟨0, 0, 6, 21⟩, ⟨0, 0, 6, 24⟩, ⟨0, 0, 6, 27⟩, ⟨0, 0, 6, 30⟩, ⟨0, 0, 6, 33⟩, ⟨0, 1, 6, 35⟩,
    ⟨0, 1, 6, 39⟩, ⟨0, 2, 6, 43⟩, ⟨0, 3, 6, 51⟩, ⟨0, 4, 6, 67⟩, ⟨0, 5, 6, 99⟩, ⟨0, 8, 6, 259⟩,
    ⟨32, 0, 4, 4⟩, ⟨48, 0, 4, 4⟩, ⟨16, 0, 4, 5⟩, ⟨32, 0, 5, 7⟩, ⟨32, 0, 5, 8⟩, ⟨32, 0, 5, 10⟩,
    ⟨32, 0, 5, 11⟩, ⟨0, 0, 6, 14⟩, ⟨0, 0, 6, 17⟩, ⟨0, 0, 6, 20⟩, ⟨0, 0, 6, 23⟩, ⟨0, 0, 6, 26⟩,
    ⟨0, 0, 6, 29⟩, ⟨0, 0, 6, 32⟩, ⟨0, 16, 6, 65539⟩, ⟨0, 15, 6, 32771⟩, ⟨0, 14, 6, 16387⟩,
    ⟨0, 13, 6, 8195⟩, ⟨0, 12, 6, 4099⟩, ⟨0, 11, 6, 2051⟩, ⟨0, 10, 6, 1027⟩]

/-- A default table of these cells. -/
def defaultDTable (tableLog : ℕ) (cells : List SeqSymbol) : SeqTable :=
  { tableLog, fastMode := true, cells := fun u => cells.getD u ⟨0, 0, 0, 0⟩ }

/-- `LL_defaultNormLog`. -/
def llDefaultNormLog : ℕ := 6

/-- `ML_defaultNormLog`. -/
def mlDefaultNormLog : ℕ := 6

/-- `OF_defaultNormLog`. -/
def ofDefaultNormLog : ℕ := 5

/-- The default counts. -/
def llDefault : Distribution where
  nc := llDefaultNorm
  maxSymbolValue := maxLL
  tableLog := llDefaultNormLog
  ge := by decide
  sum_eq := by decide +kernel
  log_ge := by decide
  log_le := by decide
  symbol_le := by decide

def mlDefault : Distribution where
  nc := mlDefaultNorm
  maxSymbolValue := maxML
  tableLog := mlDefaultNormLog
  ge := by decide
  sum_eq := by decide +kernel
  log_ge := by decide
  log_le := by decide
  symbol_le := by decide

/-- Up to `DefaultMaxOff`. -/
def ofDefault : Distribution where
  nc := ofDefaultNorm
  maxSymbolValue := 28
  tableLog := ofDefaultNormLog
  ge := by decide
  sum_eq := by decide +kernel
  log_ge := by decide
  log_le := by decide
  symbol_le := by decide

/-! ## Keeping in step -/

/-- The cell is one of the code. -/
def SeqSymbol.Names (cell : SeqSymbol) (baseValue nbAdditionalBits : ℕ → ℕ) (code : ℕ) : Prop :=
  cell.baseValue = baseValue code ∧ cell.nbAdditionalBits = nbAdditionalBits code

/-- A coding table and a decoding table of the codes that count: the low bits of a state of the coder
are the state of the decoder. -/
structure Coding (ct : CTable) (dt : SeqTable) (baseValue nbAdditionalBits : ℕ → ℕ) (maxLog : ℕ)
    (Counts : ℕ → Prop) where
  State : ℕ → Prop
  log_le : ct.tableLog ≤ maxLog
  log_eq : dt.tableLog = ct.tableLog
  first : ∀ {code}, Counts code → State (ct.firstState code) ∧
    (dt.cells (ct.firstState code % 2 ^ ct.tableLog)).Names baseValue nbAdditionalBits code
  step : ∀ {code x}, Counts code → State x → State (ct.nextState x code) ∧
    ct.nbBitsOut x code ≤ ct.tableLog ∧
    (dt.cells (ct.nextState x code % 2 ^ ct.tableLog)).Names baseValue nbAdditionalBits code ∧
    (dt.cells (ct.nextState x code % 2 ^ ct.tableLog)).nbBits = ct.nbBitsOut x code ∧
    (dt.cells (ct.nextState x code % 2 ^ ct.tableLog)).nextState + x % 2 ^ ct.nbBitsOut x code =
      x % 2 ^ ct.tableLog

/-- One symbol: the coder stays at 0, and gives out nothing. -/
def Coding.rle (ct : CTable) (dt : SeqTable) (baseValue nbAdditionalBits : ℕ → ℕ) (maxLog code : ℕ) :
    Coding (buildCTableRle ct code) (buildSeqTableRle dt (baseValue code) (nbAdditionalBits code))
      baseValue nbAdditionalBits maxLog (· = code) where
  State x := x = 0
  log_le := Nat.zero_le _
  log_eq := rfl
  first := by
    rintro _ rfl
    refine ⟨by simp [CTable.firstState, buildCTableRle], ?_⟩
    simp [buildCTableRle, buildSeqTableRle, SeqSymbol.Names, Nat.mod_one]
  step := by
    rintro _ x rfl rfl
    refine ⟨by simp [CTable.nextState, CTable.nbBitsOut, buildCTableRle],
      by simp [CTable.nbBitsOut, buildCTableRle], ?_, ?_, ?_⟩
    all_goals simp [buildCTableRle, buildSeqTableRle, SeqSymbol.Names, CTable.nbBitsOut, Nat.mod_one]

namespace Distribution

/-- What the decoder uses of a decoding table. -/
def SeqDecodedBy (d : Distribution) (baseValue nbAdditionalBits : ℕ → ℕ) (dt : SeqTable) : Prop :=
  dt.tableLog = d.tableLog ∧ ∀ u < d.size, dt.cells u =
    seqCell d.tableLog baseValue nbAdditionalBits (d.symbolOf u) (Tans.number d.symbolOf d.tableLog u)

theorem buildFSETable_spec (d : Distribution) (dt0 : SeqTable) (baseValue nbAdditionalBits : ℕ → ℕ)
    (spread : Mem) :
    d.SeqDecodedBy baseValue nbAdditionalBits
      (buildFSETable dt0 d.nc d.maxSymbolValue baseValue nbAdditionalBits d.tableLog spread) := by
  have hsize : 1 <<< d.tableLog = d.size := by rw [Nat.shiftLeft_eq, Nat.one_mul, size]
  rw [buildFSETable, hsize, d.spreadSymbols_eq]
  have hkey : ∀ u < d.size, writeAll (fun u => (dt0.cells u).baseValue) d.writes u = d.symbolOf u :=
    fun u hu => d.writeAll_eq_symbolOf _ hu
  refine ⟨rfl, fun u hu => ?_⟩
  dsimp only
  rw [deal_writeAll _ (fun u _ => u) (fun u next => seqCell d.tableLog baseValue nbAdditionalBits
    (writeAll (fun u => (dt0.cells u).baseValue) d.writes u) next)]
  refine writeAll_mem ?_ (List.mem_map.mpr ⟨u, List.mem_range.mpr hu, ?_⟩) _
  · rw [List.map_map]
    exact List.Nodup.map (fun _ _ h => h) List.nodup_range
  · rw [hkey u hu, rank_congr hkey hu, Tans.number, d.total_symbolOf (d.symbolOf_le hu)]

/-- A table that holds what is built is one of the distribution. -/
theorem seqDecodedBy_of_cells (d : Distribution) {baseValue nbAdditionalBits : ℕ → ℕ} {dt : SeqTable}
    (hlog : dt.tableLog = d.tableLog)
    (hcells : ∀ u < 2 ^ d.tableLog, dt.cells u = (buildFSETable ⟨0, false, fun _ => ⟨0, 0, 0, 0⟩⟩ d.nc
      d.maxSymbolValue baseValue nbAdditionalBits d.tableLog fun _ => 0).cells u) :
    d.SeqDecodedBy baseValue nbAdditionalBits dt :=
  ⟨hlog, fun u hu => (hcells u hu).trans ((d.buildFSETable_spec _ _ _ _).2 u hu)⟩

/-- **The default tables** are those of the default counts. -/
theorem defaultDTables_spec :
    llDefault.SeqDecodedBy llBase llBits (defaultDTable 6 llDefaultCells) ∧
      ofDefault.SeqDecodedBy ofBase ofBits (defaultDTable 5 ofDefaultCells) ∧
      mlDefault.SeqDecodedBy mlBase mlBits (defaultDTable 6 mlDefaultCells) :=
  ⟨llDefault.seqDecodedBy_of_cells rfl (by decide +kernel),
    ofDefault.seqDecodedBy_of_cells rfl (by decide +kernel),
    mlDefault.seqDecodedBy_of_cells rfl (by decide +kernel)⟩

/-- The low bits of a state are its cell. -/
theorem state_mod (d : Distribution) {x : ℕ} (hx : Tans.State d.tableLog x) :
    x % 2 ^ d.tableLog = x - d.size ∧ x - d.size < d.size := by
  have hlt := hx.2
  have hge := hx.1
  rw [Nat.pow_succ'] at hlt
  rw [Nat.mod_eq_sub_mod hge, Nat.mod_eq_of_lt (by omega)]
  exact ⟨rfl, by unfold size; omega⟩

/-- **The tables of a distribution** keep in step. -/
def coding (d : Distribution) {ct : CTable} {dt : SeqTable} {baseValue nbAdditionalBits : ℕ → ℕ}
    {maxLog : ℕ} (hlog : d.tableLog ≤ maxLog) (hlog' : maxLog ≤ 14) (hc : d.CodedBy ct)
    (hd : d.SeqDecodedBy baseValue nbAdditionalBits dt) :
    Coding ct dt baseValue nbAdditionalBits maxLog d.Counts where
  State := Tans.State d.tableLog
  log_le := by rw [hc.tableLog]; exact hlog
  log_eq := by rw [hc.tableLog, hd.1]
  first := by
    intro code hcode
    obtain ⟨u, hu, hfirst, hsym, -⟩ := hc.firstState (by omega) hcode.1 hcode.2
    have hstate : Tans.State d.tableLog (ct.firstState code) := by
      have hsucc : 2 ^ (d.tableLog + 1) = 2 * 2 ^ d.tableLog := Nat.pow_succ'
      rw [hfirst]
      unfold Tans.State size at *
      omega
    refine ⟨hstate, ?_⟩
    rw [hc.tableLog, (d.state_mod hstate).1, hfirst, Nat.add_sub_cancel_left, hd.2 u hu, hsym]
    exact ⟨rfl, rfl⟩
  step := by
    intro code x hcode hx
    obtain ⟨hnb, hcodes⟩ := hc.codes hcode.1 hcode.2 hx
    obtain ⟨hwidth, hbase⟩ := hcodes.inverse hnb
    obtain ⟨hmod, hlt⟩ := d.state_mod hcodes.state
    rw [hc.tableLog, hmod, hd.2 _ hlt, (d.state_mod hx).1]
    refine ⟨hcodes.state, hnb, ?_, hwidth, ?_⟩
    · rw [show d.symbolOf (ct.nextState x code - d.size) = code from hcodes.sym_eq]
      exact ⟨rfl, rfl⟩
    · refine Eq.trans ?_ hbase
      show _ <<< _ - 1 <<< d.tableLog + _ = _ <<< _ - 2 ^ d.tableLog + _
      rw [Nat.shiftLeft_eq 1, Nat.one_mul]
      rfl

end Distribution

end ZramUpgrade.Zstd
