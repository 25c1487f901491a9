import ZramUpgrade.Zstd.FseTable

/-!
# Zstd.Fse — `FSE_compress_usingCTable` and `FSE_decompress_usingDTable_generic`

Two states take turns: the even symbols are coded by `CState1`, the odd ones by `CState2`, from the
last symbol to the first.  The last symbol of each state costs nothing, so the decoder knows the end by
asking for more bits than there are.  `TwoStates` says what the coder has in hand over a suffix of the
source; both loops keep it (`EncInv`, `DecInv`), and what is decoded is the source (`fse_roundTrip`).
-/

namespace ZramUpgrade.Zstd

open Lib

/-! ## The coder -/

/-- `FSE_encodeSymbol`: the stream and the new state. -/
def encodeSymbol (ct : CTable) (bitC : CStream) (value symbol : ℕ) : CStream × ℕ :=
  (bitC.addBits value (ct.nbBitsOut value symbol), ct.nextState value symbol)

/-- `FSE_flushCState`. -/
def flushCState (ct : CTable) (bitC : CStream) (value : ℕ) : CStream :=
  (bitC.addBits value ct.tableLog).flushBits

/-- `FSE_FLUSHBITS`. -/
def CStream.fseFlush (fast : Bool) (bitC : CStream) : CStream :=
  if fast then bitC.flushBitsFast else bitC.flushBits

/-- The locals of `FSE_compress_usingCTable_generic`. -/
structure FseEncoder where
  bitC : CStream
  cState1 : ℕ
  cState2 : ℕ
  ip : ℕ

/-- A symbol of each state, `CState2` first. -/
def FseEncoder.encodeTwo (ct : CTable) (src : Mem) (e : FseEncoder) : FseEncoder :=
  let (bitC, cState2) := encodeSymbol ct e.bitC e.cState2 (src (e.ip - 1)).toNat
  let (bitC, cState1) := encodeSymbol ct bitC e.cState1 (src (e.ip - 2)).toNat
  { bitC, cState1, cState2, ip := e.ip - 2 }

def FseEncoder.flush (fast : Bool) (e : FseEncoder) : FseEncoder :=
  { e with bitC := e.bitC.fseFlush fast }

/-- The states of the last two symbols, and one symbol more where their number is odd. -/
def FseEncoder.init (ct : CTable) (src : Mem) (srcSize : ℕ) (fast : Bool) (bitC : CStream) :
    FseEncoder :=
  if srcSize &&& 1 = 1 then
    let cState1 := ct.firstState (src (srcSize - 1)).toNat
    let cState2 := ct.firstState (src (srcSize - 2)).toNat
    let (bitC, cState1) := encodeSymbol ct bitC cState1 (src (srcSize - 3)).toNat
    FseEncoder.flush fast { bitC, cState1, cState2, ip := srcSize - 3 }
  else
    { bitC, cState1 := ct.firstState (src (srcSize - 2)).toNat
      cState2 := ct.firstState (src (srcSize - 1)).toNat, ip := srcSize - 2 }

/-- Four symbols a turn, which a register of 64 bits can hold. -/
def FseEncoder.loop (ct : CTable) (src : Mem) (fast : Bool) (e : FseEncoder) : FseEncoder :=
  if 0 < e.ip then
    FseEncoder.loop ct src fast (((e.encodeTwo ct src).encodeTwo ct src).flush fast)
  else e
termination_by e.ip
decreasing_by
  show e.ip - 2 - 2 < e.ip
  omega

/-- `FSE_compress_usingCTable_generic`: the size, 0 where it does not fit, and the buffer. -/
def compressUsingCTableGeneric (dst : Mem) (dstSize : ℕ) (src : Mem) (srcSize : ℕ) (ct : CTable)
    (fast : Bool) : ℕ × Mem :=
  if srcSize ≤ 2 then (0, dst)
  else
    match initCStream dst dstSize with
    | .error _ => (0, dst)
    | .ok bitC =>
      let e := FseEncoder.init ct src srcSize fast bitC
      -- join to mod 4
      let e := if (srcSize - 2) &&& 2 ≠ 0 then (e.encodeTwo ct src).flush fast else e
      let e := e.loop ct src fast
      (flushCState ct (flushCState ct e.bitC e.cState2) e.cState1).close

/-- `FSE_BLOCKBOUND`. -/
def blockBound (size : ℕ) : ℕ := size + size >>> 7 + 4 + 8

/-- `FSE_compress_usingCTable`. -/
def compressUsingCTable (dst : Mem) (dstSize : ℕ) (src : Mem) (srcSize : ℕ) (ct : CTable) : ℕ × Mem :=
  if blockBound srcSize ≤ dstSize then compressUsingCTableGeneric dst dstSize src srcSize ct true
  else compressUsingCTableGeneric dst dstSize src srcSize ct false

/-! ## The decoder -/

/-- `FSE_initDState`. -/
def initDState (cSrc : Mem) (dt : DTable) (bitD : DStream) : ℕ × DStream :=
  ((bitD.readBits dt.tableLog).1, (DStream.reload cSrc (bitD.readBits dt.tableLog).2).2)

/-- `FSE_decodeSymbol`, and in fast mode `FSE_decodeSymbolFast`: the symbol, the new state, the stream. -/
def decodeSymbol (dt : DTable) (fast : Bool) (bitD : DStream) (state : ℕ) : ℕ × ℕ × DStream :=
  let dInfo := dt.cells state
  let (lowBits, bitD) := if fast then bitD.readBitsFast dInfo.nbBits else bitD.readBits dInfo.nbBits
  (dInfo.symbol, dInfo.newState + lowBits, bitD)

/-- The locals of `FSE_decompress_usingDTable_generic`. -/
structure FseDecoder where
  bitD : DStream
  state1 : ℕ
  state2 : ℕ
  op : ℕ
  dst : Mem

/-- `*op++ = FSE_GETSYMBOL(&state1)`. -/
def FseDecoder.get1 (dt : DTable) (fast : Bool) (e : FseDecoder) : FseDecoder :=
  let (symbol, state1, bitD) := decodeSymbol dt fast e.bitD e.state1
  { e with bitD, state1, op := e.op + 1, dst := store e.dst e.op (UInt8.ofNat symbol) }

/-- `*op++ = FSE_GETSYMBOL(&state2)`. -/
def FseDecoder.get2 (dt : DTable) (fast : Bool) (e : FseDecoder) : FseDecoder :=
  let (symbol, state2, bitD) := decodeSymbol dt fast e.bitD e.state2
  { e with bitD, state2, op := e.op + 1, dst := store e.dst e.op (UInt8.ofNat symbol) }

/-- `BIT_reloadDStream(&bitD)`. -/
def FseDecoder.reload (cSrc : Mem) (e : FseDecoder) : DStreamStatus × FseDecoder :=
  ((DStream.reload cSrc e.bitD).1, { e with bitD := (DStream.reload cSrc e.bitD).2 })

/-- Four symbols a turn; `olimit` is three below the end. -/
def FseDecoder.loop (cSrc : Mem) (dt : DTable) (fast : Bool) (maxDstSize : ℕ) (e : FseDecoder) :
    FseDecoder :=
  if (e.reload cSrc).1 = .unfinished ∧ e.op + 3 < maxDstSize then
    FseDecoder.loop cSrc dt fast maxDstSize
      (((((e.reload cSrc).2.get1 dt fast).get2 dt fast).get1 dt fast).get2 dt fast)
  else (e.reload cSrc).2
termination_by maxDstSize - e.op
decreasing_by
  show maxDstSize - (e.op + 1 + 1 + 1 + 1) < maxDstSize - e.op
  omega

/-- One symbol at a time, up to the overflow. -/
def FseDecoder.tail (cSrc : Mem) (dt : DTable) (fast : Bool) (maxDstSize : ℕ) (e : FseDecoder) :
    Except ErrorCode FseDecoder :=
  if maxDstSize < e.op + 2 then .error .dstSizeTooSmall
  else
    let r := (e.get1 dt fast).reload cSrc
    if r.1 = .overflow then .ok (r.2.get2 dt fast)
    else if maxDstSize < r.2.op + 2 then .error .dstSizeTooSmall
    else
      let r := (r.2.get2 dt fast).reload cSrc
      if r.1 = .overflow then .ok (r.2.get1 dt fast)
      else FseDecoder.tail cSrc dt fast maxDstSize r.2
termination_by maxDstSize - e.op
decreasing_by
  show maxDstSize - (e.op + 1 + 1) < maxDstSize - e.op
  omega

/-- `FSE_decompress_usingDTable_generic`: the size and the buffer. -/
def decompressUsingDTableGeneric (dst : Mem) (maxDstSize : ℕ) (cSrc : Mem) (cSrcSize : ℕ) (dt : DTable)
    (fast : Bool) : Except ErrorCode (ℕ × Mem) :=
  match initDStream cSrc cSrcSize with
  | .error err => .error err
  | .ok bitD =>
    let s1 := initDState cSrc dt bitD
    let s2 := initDState cSrc dt s1.2
    let r := FseDecoder.reload cSrc { bitD := s2.2, state1 := s1.1, state2 := s2.1, op := 0, dst }
    if r.1 = .overflow then .error .corruptionDetected
    else
      match (r.2.loop cSrc dt fast maxDstSize).tail cSrc dt fast maxDstSize with
      | .error err => .error err
      | .ok e => .ok (e.op, e.dst)

/-- The choice of `FSE_decompress_wksp_body` by the header of the table. -/
def decompressUsingDTable (dst : Mem) (maxDstSize : ℕ) (cSrc : Mem) (cSrcSize : ℕ) (dt : DTable) :
    Except ErrorCode (ℕ × Mem) :=
  if dt.fastMode then decompressUsingDTableGeneric dst maxDstSize cSrc cSrcSize dt true
  else decompressUsingDTableGeneric dst maxDstSize cSrc cSrcSize dt false

/-! ## Two states in turn -/

/-- What the coder has in hand over the symbols of a suffix: the state of the first symbol, the state
of the second, and the bits given out. -/
inductive TwoStates (ct : CTable) : List ℕ → ℕ → ℕ → BitStack → Prop where
  | last (s t : ℕ) : TwoStates ct [s, t] (ct.firstState s) (ct.firstState t) .empty
  | code {l : List ℕ} {x y : ℕ} {b : BitStack} (s : ℕ) (h : TwoStates ct l x y b) :
      TwoStates ct (s :: l) (ct.nextState y s) x (b.push (ct.nbBitsOut y s) y)

/-- A symbol the distribution counts. -/
def Distribution.Counts (d : Distribution) (s : ℕ) : Prop := s ≤ d.maxSymbolValue ∧ d.nc s ≠ 0

section TwoStates

variable {d : Distribution} {ct : CTable} {dt : DTable} {l : List ℕ} {s t x y : ℕ} {b : BitStack}

theorem TwoStates.two_le (h : TwoStates ct l x y b) : 2 ≤ l.length := by
  induction h with
  | last s t => exact le_rfl
  | code s _ ih => exact Nat.le_succ_of_le ih

/-- Both states are states of the table. -/
theorem TwoStates.states (h : TwoStates ct l x y b) (hc : d.CodedBy ct) (hlog : d.tableLog ≤ 14)
    (hl : ∀ s ∈ l, d.Counts s) : Tans.State d.tableLog x ∧ Tans.State d.tableLog y := by
  have hfirst : ∀ s, d.Counts s → Tans.State d.tableLog (ct.firstState s) := fun s hs => by
    obtain ⟨u, hu, hx, -, -⟩ := hc.firstState hlog hs.1 hs.2
    have hsucc : 2 ^ (d.tableLog + 1) = 2 * 2 ^ d.tableLog := Nat.pow_succ'
    rw [hx]
    unfold Tans.State Distribution.size at *
    omega
  induction h with
  | last s t => exact ⟨hfirst s (hl s (by simp)), hfirst t (hl t (by simp))⟩
  | code s _ ih =>
    obtain ⟨hx, hy⟩ := ih fun r hr => hl r (List.mem_cons_of_mem _ hr)
    obtain ⟨hs, hne⟩ := hl s List.mem_cons_self
    exact ⟨(hc.codes hs hne hy).2.state, hx⟩

/-- No symbol costs more than `tableLog` bits, and the last two cost none. -/
theorem TwoStates.len_le (h : TwoStates ct l x y b) (hc : d.CodedBy ct) (hlog : d.tableLog ≤ 14)
    (hl : ∀ s ∈ l, d.Counts s) : b.len ≤ d.tableLog * (l.length - 2) := by
  induction h with
  | last s t => exact Nat.zero_le _
  | @code l x y b s h ih =>
    have hrest := fun r hr => hl r (List.mem_cons_of_mem _ hr)
    have hlen := ih hrest
    obtain ⟨hs, hne⟩ := hl s List.mem_cons_self
    have hnb := (hc.codes hs hne (h.states hc hlog hrest).2).1
    have h2 := h.two_le
    rw [BitStack.push_len, List.length_cons, show l.length + 1 - 2 = l.length - 2 + 1 by omega,
      Nat.mul_succ]
    omega

end TwoStates

/-! ## What the coder leaves -/

/-- The symbols from `i` on. -/
def suffix (src : Mem) (srcSize i : ℕ) : List ℕ := (List.range' i (srcSize - i)).map fun k => (src k).toNat

theorem suffix_cons {src : Mem} {n i : ℕ} (h : i < n) :
    suffix src n i = (src i).toNat :: suffix src n (i + 1) := by
  obtain ⟨k, hk⟩ : ∃ k, n - i = k + 1 := ⟨n - i - 1, by omega⟩
  rw [suffix, suffix, hk, List.range'_succ, List.map_cons, show n - (i + 1) = k by omega]

theorem suffix_nil {src : Mem} {n : ℕ} : suffix src n n = [] := by rw [suffix, Nat.sub_self]; rfl

theorem suffix_length (src : Mem) (n i : ℕ) : (suffix src n i).length = n - i := by
  rw [suffix, List.length_map, List.length_range']

theorem mem_suffix {src : Mem} {n i s : ℕ} (h : s ∈ suffix src n i) :
    ∃ k < n, (src k).toNat = s := by
  obtain ⟨k, hk, rfl⟩ := List.mem_map.mp h
  have := List.mem_range'_1.mp hk
  exact ⟨k, by omega, rfl⟩

section Coder

variable {d : Distribution} {ct : CTable} {src dst : Mem} {n cap : ℕ} {fast : Bool} {e : FseEncoder}
  {b : BitStack}

/-- The coder has done the symbols from `ip` on. -/
structure EncInv (ct : CTable) (src : Mem) (n : ℕ) (dst : Mem) (cap : ℕ) (e : FseEncoder)
    (b : BitStack) : Prop where
  states : TwoStates ct (suffix src n e.ip) e.cState1 e.cState2 b
  holds : e.bitC.Holds dst cap b
  even : e.ip % 2 = 0

/-- Two more symbols. -/
theorem EncInv.encodeTwo (h : EncInv ct src n dst cap e b) (hc : d.CodedBy ct) (hlog : d.tableLog ≤ 12)
    (hsrc : ∀ k < n, d.Counts (src k).toNat) (hip : 0 < e.ip) (hpos : e.bitC.bitPos + 24 < 64) :
    ∃ b', EncInv ct src n dst cap (e.encodeTwo ct src) b' ∧
      (e.encodeTwo ct src).bitC.bitPos ≤ e.bitC.bitPos + 24 := by
  have heven := h.even
  have hlen := h.states.two_le
  rw [suffix_length] at hlen
  have hall : ∀ s ∈ suffix src n e.ip, d.Counts s := fun s hs => by
    obtain ⟨k, hk, rfl⟩ := mem_suffix hs
    exact hsrc k hk
  obtain ⟨hx, hy⟩ := h.states.states hc (by omega) hall
  have h1 : suffix src n (e.ip - 1) = (src (e.ip - 1)).toNat :: suffix src n e.ip := by
    rw [suffix_cons (by omega), Nat.sub_add_cancel hip]
  have h2 : suffix src n (e.ip - 2) = (src (e.ip - 2)).toNat :: suffix src n (e.ip - 1) := by
    rw [suffix_cons (by omega), show e.ip - 2 + 1 = e.ip - 1 by omega]
  have hs1 := hsrc (e.ip - 1) (by omega)
  have hs2 := hsrc (e.ip - 2) (by omega)
  have hnb1 := (hc.codes hs1.1 hs1.2 hy).1
  have hnb2 := (hc.codes hs2.1 hs2.2 hx).1
  have hst1 := h.states.code (src (e.ip - 1)).toNat
  rw [← h1] at hst1
  have hst2 := hst1.code (src (e.ip - 2)).toNat
  rw [← h2] at hst2
  have hh1 := h.holds.addBits e.cState2 (ct.nbBitsOut e.cState2 (src (e.ip - 1)).toNat) (by omega)
  have hh2 := hh1.addBits e.cState1 (ct.nbBitsOut e.cState1 (src (e.ip - 2)).toNat)
    (by show e.bitC.bitPos + _ + _ < 64; omega)
  refine ⟨_, ⟨hst2, hh2, ?_⟩, ?_⟩
  · show (e.ip - 2) % 2 = 0
    omega
  · show e.bitC.bitPos + _ + _ ≤ e.bitC.bitPos + 24
    omega

theorem EncInv.flush (h : EncInv ct src n dst cap e b) :
    EncInv ct src n dst cap (e.flush false) b ∧ (e.flush false).bitC.bitPos < 8 :=
  ⟨⟨h.states, h.holds.flushBits, h.even⟩, e.bitC.flushBits_pos⟩

/-- The states of the last two symbols, and the odd symbol. -/
theorem EncInv.init (hc : d.CodedBy ct) (hlog : d.tableLog ≤ 12)
    (hsrc : ∀ k < n, d.Counts (src k).toNat) (hn : 2 < n) {bitC : CStream}
    (hh : bitC.Holds dst cap .empty) (hpos : bitC.bitPos = 0) :
    ∃ b, EncInv ct src n dst cap (FseEncoder.init ct src n false bitC) b ∧
      (FseEncoder.init ct src n false bitC).bitC.bitPos < 8 ∧
      (FseEncoder.init ct src n false bitC).ip = if n % 2 = 1 then n - 3 else n - 2 := by
  have hodd : n &&& 1 = n % 2 := Nat.and_one_is_mod n
  have hlast : TwoStates ct (suffix src n (n - 2)) (ct.firstState (src (n - 2)).toNat)
      (ct.firstState (src (n - 1)).toNat) .empty := by
    rw [suffix_cons (by omega), show n - 2 + 1 = n - 1 by omega, suffix_cons (by omega),
      Nat.sub_add_cancel (by omega), suffix_nil]
    exact .last _ _
  rw [FseEncoder.init, hodd]
  by_cases h1 : n % 2 = 1
  · rw [if_pos h1, if_pos h1]
    have hs := hsrc (n - 3) (by omega)
    have hall : ∀ s ∈ suffix src n (n - 2), d.Counts s := fun s hs => by
      obtain ⟨k, hk, rfl⟩ := mem_suffix hs
      exact hsrc k hk
    have hnb := (hc.codes hs.1 hs.2 (hlast.states hc (by omega) hall).2).1
    have hst := hlast.code (src (n - 3)).toNat
    rw [show n - 2 = n - 3 + 1 by omega, ← suffix_cons (by omega),
      show n - 3 + 1 = n - 2 by omega] at hst
    have hadd := hh.addBits (ct.firstState (src (n - 1)).toNat)
      (ct.nbBitsOut (ct.firstState (src (n - 1)).toNat) (src (n - 3)).toNat) (by omega)
    have hinv : EncInv ct src n dst cap
        { bitC := (encodeSymbol ct bitC (ct.firstState (src (n - 1)).toNat) (src (n - 3)).toNat).1
          cState1 := (encodeSymbol ct bitC (ct.firstState (src (n - 1)).toNat) (src (n - 3)).toNat).2
          cState2 := ct.firstState (src (n - 2)).toNat, ip := n - 3 } _ :=
      ⟨hst, hadd, by show (n - 3) % 2 = 0; omega⟩
    exact ⟨_, hinv.flush.1, hinv.flush.2, rfl⟩
  · rw [if_neg h1, if_neg h1]
    refine ⟨_, ⟨hlast, hh, ?_⟩, ?_, rfl⟩
    · show (n - 2) % 2 = 0
      omega
    · show bitC.bitPos < 8
      omega

/-- **The loop of the coder** ends at the start of the source. -/
theorem EncInv.loop (hc : d.CodedBy ct) (hlog : d.tableLog ≤ 12)
    (hsrc : ∀ k < n, d.Counts (src k).toNat) {k : ℕ} :
    ∀ {e : FseEncoder} {b : BitStack}, EncInv ct src n dst cap e b → e.bitC.bitPos < 8 → e.ip = 4 * k →
      ∃ b', EncInv ct src n dst cap (e.loop ct src false) b' ∧ (e.loop ct src false).bitC.bitPos < 8 ∧
        (e.loop ct src false).ip = 0 := by
  induction k with
  | zero =>
    intro e b h hpos hip
    rw [FseEncoder.loop, if_neg (by omega)]
    exact ⟨b, h, hpos, hip⟩
  | succ k ih =>
    intro e b h hpos hip
    obtain ⟨b1, h1, hpos1⟩ := h.encodeTwo hc hlog hsrc (by omega) (by omega)
    have hip1 : (e.encodeTwo ct src).ip = e.ip - 2 := rfl
    obtain ⟨b2, h2, -⟩ := h1.encodeTwo hc hlog hsrc (by omega) (by omega)
    rw [FseEncoder.loop, if_pos (by omega)]
    refine ih h2.flush.1 h2.flush.2 ?_
    show e.ip - 2 - 2 = 4 * k
    omega

/-- The coder after the loop, both states still to be flushed. -/
def FseEncoder.finish (ct : CTable) (src : Mem) (srcSize : ℕ) (fast : Bool) (bitC : CStream) :
    FseEncoder :=
  let e := FseEncoder.init ct src srcSize fast bitC
  (if (srcSize - 2) &&& 2 ≠ 0 then (e.encodeTwo ct src).flush fast else e).loop ct src fast

theorem compressUsingCTableGeneric_eq (ct : CTable) (src dst : Mem) (h : 2 < n) (hcap : 8 < cap) :
    ∃ bitC, initCStream dst cap = .ok bitC ∧ bitC.Holds dst cap .empty ∧ bitC.bitPos = 0 ∧
      ∀ fast, compressUsingCTableGeneric dst cap src n ct fast =
        (flushCState ct (flushCState ct (FseEncoder.finish ct src n fast bitC).bitC
          (FseEncoder.finish ct src n fast bitC).cState2)
          (FseEncoder.finish ct src n fast bitC).cState1).close := by
  obtain ⟨bitC, hinit, hh, hpos⟩ := CStream.init_holds dst hcap
  refine ⟨bitC, hinit, hh, hpos, fun fast => ?_⟩
  rw [compressUsingCTableGeneric, if_neg (by omega), hinit]
  rfl

theorem and_two (x : ℕ) : x &&& 2 = 2 * (x / 2 % 2) := by
  have hhalf : (x &&& 2) / 2 = x / 2 % 2 := by rw [Nat.and_div_two, ← Nat.and_one_is_mod]
  have heven : ¬ (x &&& 2) % 2 = 1 := by
    rw [Nat.and_mod_two_eq_one]
    exact fun h => absurd h.2 (by decide)
  omega

theorem EncInv.finish (hc : d.CodedBy ct) (hlog : d.tableLog ≤ 12)
    (hsrc : ∀ k < n, d.Counts (src k).toNat) (hn : 2 < n) {bitC : CStream}
    (hh : bitC.Holds dst cap .empty) (hpos : bitC.bitPos = 0) :
    ∃ b, EncInv ct src n dst cap (FseEncoder.finish ct src n false bitC) b ∧
      (FseEncoder.finish ct src n false bitC).bitC.bitPos < 8 ∧
      (FseEncoder.finish ct src n false bitC).ip = 0 := by
  obtain ⟨b, h, hpos8, hip⟩ := EncInv.init hc hlog hsrc hn hh hpos
  set e := FseEncoder.init ct src n false bitC with he
  have heven := h.even
  rw [FseEncoder.finish, ← he, and_two]
  by_cases hjoin : 2 * ((n - 2) / 2 % 2) ≠ 0
  · obtain ⟨b1, h1, -⟩ := h.encodeTwo hc hlog hsrc (by split_ifs at hip <;> omega) (by omega)
    have hip1 : ((e.encodeTwo ct src).flush false).ip = e.ip - 2 := rfl
    rw [if_pos hjoin]
    exact h1.flush.1.loop hc hlog hsrc (k := (e.ip - 2) / 4) h1.flush.2
      (by split_ifs at hip <;> omega)
  · rw [if_neg hjoin]
    exact h.loop hc hlog hsrc (k := e.ip / 4) hpos8 (by split_ifs at hip <;> omega)

/-- **What the coder leaves**: the two states on top of the bits of all symbols. -/
theorem compress_holds (dst : Mem) (hc : d.CodedBy ct) (hlog : d.tableLog ≤ 12)
    (hsrc : ∀ k < n, d.Counts (src k).toNat) (hn : 2 < n) (hcap : 8 < cap) :
    ∃ (c : CStream) (b : BitStack) (x y : ℕ), TwoStates ct (suffix src n 0) x y b ∧
      compressUsingCTableGeneric dst cap src n ct false = c.close ∧ c.bitPos < 63 ∧
      c.Holds dst cap ((b.push d.tableLog y).push d.tableLog x) := by
  obtain ⟨bitC, -, hh, hpos, hrun⟩ :=
    compressUsingCTableGeneric_eq ct src dst hn hcap
  obtain ⟨b, h, hpos8, hip⟩ := EncInv.finish hc hlog hsrc hn hh hpos
  have hst := h.states
  rw [hip] at hst
  set e := FseEncoder.finish ct src n false bitC with he
  have h1 := (h.holds.addBits e.cState2 d.tableLog (by omega)).flushBits
  have hpos1 := (e.bitC.addBits e.cState2 d.tableLog).flushBits_pos
  have h2 := (h1.addBits e.cState1 d.tableLog (by omega)).flushBits
  have hpos2 := (((e.bitC.addBits e.cState2 d.tableLog).flushBits).addBits e.cState1
    d.tableLog).flushBits_pos
  refine ⟨_, b, _, _, hst, hrun false, ?_, ?_⟩
  · rw [flushCState, flushCState, hc.tableLog]
    exact lt_trans hpos2 (by decide)
  · rw [flushCState, flushCState, hc.tableLog]
    exact h2

/-! ### Flushing without a check -/

/-- From `c` to `c'` the writer has not come back: if it is before its end now, it was then. -/
def Later (c c' : CStream) : Prop :=
  c'.endPtr = c.endPtr ∧ (c'.ptr < c.endPtr → c.ptr < c.endPtr)

theorem Later.refl (c : CStream) : Later c c := ⟨rfl, id⟩

theorem Later.trans {a b c : CStream} (h : Later a b) (h' : Later b c) : Later a c :=
  ⟨h'.1.trans h.1, fun hc => h.2 (h.1 ▸ h'.2 (h.1.symm ▸ hc))⟩

theorem later_flushBits (c : CStream) : Later c c.flushBits :=
  ⟨rfl, fun h => (CStream.flushBits_ptr h).1⟩

/-- A flush that ends before the end needs no check. -/
theorem fseFlush_eq {c : CStream} (h : c.flushBits.ptr < c.endPtr) (fast : Bool) :
    c.fseFlush fast = c.flushBits := by
  cases fast with
  | false => rfl
  | true => exact CStream.flushBitsFast_eq (by have := CStream.flushBits_ptr h; omega)

theorem loop_later (ct : CTable) (src : Mem) (e : FseEncoder) :
    Later e.bitC (e.loop ct src false).bitC := by
  induction e using FseEncoder.loop.induct ct src false with
  | case1 e hip ih =>
    rw [FseEncoder.loop, if_pos hip]
    exact Later.trans (later_flushBits ((e.encodeTwo ct src).encodeTwo ct src).bitC) ih
  | case2 e hip =>
    rw [FseEncoder.loop, if_neg hip]
    exact Later.refl _

theorem loop_fast {e : FseEncoder} (h : (e.loop ct src false).bitC.ptr < e.bitC.endPtr) :
    e.loop ct src fast = e.loop ct src false := by
  induction e using FseEncoder.loop.induct ct src false with
  | case1 e hip ih =>
    rw [FseEncoder.loop, if_pos hip] at h
    have hflush : ((e.encodeTwo ct src).encodeTwo ct src).bitC.flushBits.ptr < e.bitC.endPtr :=
      (loop_later ct src (((e.encodeTwo ct src).encodeTwo ct src).flush false)).2 h
    have heq : ((e.encodeTwo ct src).encodeTwo ct src).flush fast =
        ((e.encodeTwo ct src).encodeTwo ct src).flush false := by
      rw [FseEncoder.flush, fseFlush_eq hflush]
      rfl
    rw [FseEncoder.loop, if_pos hip, heq, ih h]
    conv_rhs => rw [FseEncoder.loop, if_pos hip]
  | case2 e hip =>
    rw [FseEncoder.loop, if_neg hip, FseEncoder.loop, if_neg hip]

theorem init_later (ct : CTable) (src : Mem) (n : ℕ) (bitC : CStream) :
    Later bitC (FseEncoder.init ct src n false bitC).bitC := by
  unfold FseEncoder.init
  split_ifs
  · exact later_flushBits (encodeSymbol ct bitC _ _).1
  · exact Later.refl _

theorem init_fast {bitC : CStream} (h : (FseEncoder.init ct src n false bitC).bitC.ptr < bitC.endPtr) :
    FseEncoder.init ct src n fast bitC = FseEncoder.init ct src n false bitC := by
  unfold FseEncoder.init at h ⊢
  split_ifs at h ⊢
  · dsimp only [FseEncoder.flush] at h ⊢
    rw [fseFlush_eq (c := (encodeSymbol ct bitC _ _).1) h]
    rfl
  · rfl

/-- The turn that joins to mod 4. -/
def FseEncoder.join (ct : CTable) (src : Mem) (srcSize : ℕ) (fast : Bool) (e : FseEncoder) : FseEncoder :=
  if (srcSize - 2) &&& 2 ≠ 0 then (e.encodeTwo ct src).flush fast else e

theorem join_later (ct : CTable) (src : Mem) (n : ℕ) (e : FseEncoder) :
    Later e.bitC (e.join ct src n false).bitC := by
  unfold FseEncoder.join
  split_ifs
  · exact later_flushBits (e.encodeTwo ct src).bitC
  · exact Later.refl _

theorem join_fast (h : (e.join ct src n false).bitC.ptr < e.bitC.endPtr) :
    e.join ct src n fast = e.join ct src n false := by
  unfold FseEncoder.join at h ⊢
  split_ifs at h ⊢
  · dsimp only [FseEncoder.flush] at h ⊢
    rw [fseFlush_eq (c := (e.encodeTwo ct src).bitC) h]
    rfl
  · rfl

theorem finish_eq (ct : CTable) (src : Mem) (n : ℕ) (fast : Bool) (bitC : CStream) :
    FseEncoder.finish ct src n fast bitC =
      ((FseEncoder.init ct src n fast bitC).join ct src n fast).loop ct src fast := rfl

theorem finish_later (ct : CTable) (src : Mem) (n : ℕ) (bitC : CStream) :
    Later bitC (FseEncoder.finish ct src n false bitC).bitC :=
  (init_later ct src n bitC).trans ((join_later ct src n _).trans (loop_later ct src _))

theorem finish_fast {bitC : CStream}
    (h : (FseEncoder.finish ct src n false bitC).bitC.ptr < bitC.endPtr) :
    FseEncoder.finish ct src n fast bitC = FseEncoder.finish ct src n false bitC := by
  rw [finish_eq] at h
  have h1 := init_later ct src n bitC
  have h2 := h1.trans (join_later ct src n _)
  have h3 := loop_later ct src ((FseEncoder.init ct src n false bitC).join ct src n false)
  have hjoin : ((FseEncoder.init ct src n false bitC).join ct src n false).bitC.ptr < bitC.endPtr :=
    h2.1 ▸ h3.2 (h2.1.symm ▸ h)
  have hinit : (FseEncoder.init ct src n false bitC).bitC.ptr < bitC.endPtr :=
    h1.1 ▸ (join_later ct src n _).2 (h1.1.symm ▸ hjoin)
  rw [finish_eq, finish_eq, init_fast hinit, join_fast (h1.1.symm ▸ hjoin), loop_fast (h2.1.symm ▸ h)]

end Coder

/-! ## What the decoder gets -/

section Decoder

variable {d : Distribution} {ct : CTable} {dt : DTable} {src cSrc dst : Mem} {n cSrcSize maxDstSize : ℕ}
  {fast : Bool} {e : FseDecoder} {b : BitStack} {l : List ℕ} {s t x y state k p : ℕ} {bitD : DStream}

/-- What `bitD` is after a symbol, the bits it could not give included. -/
theorem decodeSymbol_skip (dt : DTable) (fast : Bool) (bitD : DStream) (state : ℕ) :
    (decodeSymbol dt fast bitD state).1 = (dt.cells state).symbol ∧
      (decodeSymbol dt fast bitD state).2.2 = bitD.skipBits (dt.cells state).nbBits := by
  cases fast <;> exact ⟨rfl, rfl⟩

/-- **A symbol with others after it**: the decoder takes back what the coder did last. -/
theorem decodeSymbol_code (hd : d.DecodedBy dt) (hc : d.CodedBy ct) (hlog : d.tableLog ≤ 14)
    (hfast : fast = true → dt.fastMode = true) (hcounts : ∀ r ∈ s :: l, d.Counts r) (h2 : 2 ≤ l.length)
    (hst : TwoStates ct (s :: l) (d.size + state) y b) (hh : bitD.Holds cSrc cSrcSize b p)
    (hr : bitD.Ready b k) (hk : d.tableLog ≤ k) :
    (decodeSymbol dt fast bitD state).1 = s ∧
      ∃ b', TwoStates ct l y (d.size + (decodeSymbol dt fast bitD state).2.1) b' ∧
        (decodeSymbol dt fast bitD state).2.2.Holds cSrc cSrcSize b' p ∧
        (decodeSymbol dt fast bitD state).2.2.Ready b' (k - d.tableLog) := by
  generalize hx : d.size + state = x at hst
  cases hst with
  | last => exact absurd h2 (by simp)
  | @code _ _ y' b' _ hst =>
    have hrest := fun r hr => hcounts r (List.mem_cons_of_mem _ hr)
    obtain ⟨hs, hne⟩ := hcounts s List.mem_cons_self
    have hy' := (hst.states hc hlog hrest).2
    obtain ⟨hstate, hnb, hsym, hcell, hback⟩ := hd.inverse hc hs hne hy'
    have hstate_eq : ct.nextState y' s - d.size = state := by omega
    rw [hstate_eq] at hsym hcell hback
    have hu : state < d.size := by
      have := hstate.2
      rw [← hx, Nat.pow_succ'] at this
      unfold Distribution.size at *
      omega
    -- both readers give the low bits of the state before
    have hread := hh.readBits (n := ct.nbBitsOut y' s) hr (by omega)
      (by rw [BitStack.push_len]; exact Nat.le_add_left _ _)
    rw [BitStack.top_push, BitStack.pop_push] at hread
    obtain ⟨hval, hholds, hready⟩ := hread
    have hready' : (bitD.readBits (ct.nbBitsOut y' s)).2.Ready b' (k - d.tableLog) := by
      unfold DStream.Ready at hready ⊢
      omega
    have hsize : d.size ≤ y' := hy'.1
    have hdecode : decodeSymbol dt fast bitD state =
        (s, y' - d.size, (bitD.readBits (ct.nbBitsOut y' s)).2) := by
      cases hf : fast with
      | false =>
        rw [decodeSymbol]
        dsimp only
        rw [hcell, if_neg Bool.false_ne_true, hsym, hval, hback]
      | true =>
        have hpos := hd.nbBits_pos (hfast hf) hu
        rw [hcell] at hpos
        rw [decodeSymbol]
        dsimp only
        rw [hcell, if_pos rfl, hh.readBitsFast hr (by omega)
          (by rw [BitStack.push_len]; exact Nat.le_add_left _ _) hpos, hsym, hval, hback]
    rw [hdecode]
    refine ⟨rfl, b', ?_, hholds, hready'⟩
    rw [Nat.add_sub_cancel' hsize]
    exact hst

/-- **The last symbol of a state**: its bits are not there, which shows at the next reload. -/
theorem decodeSymbol_last (fast : Bool) (hd : d.DecodedBy dt) (hc : d.CodedBy ct) (hlog : d.tableLog ≤ 14)
    (hhalf : ∀ r ≤ d.maxSymbolValue, cellsOf d.nc r < 2 ^ d.tableLog) (hs : d.Counts s)
    (hx : ct.firstState s = d.size + state) (hh : bitD.Holds cSrc cSrcSize .empty p) :
    (decodeSymbol dt fast bitD state).1 = s ∧
      (DStream.reload cSrc (decodeSymbol dt fast bitD state).2.2).1 = .overflow := by
  obtain ⟨u, hu, hfirst, hsym, hnumber⟩ := hc.firstState hlog hs.1 hs.2
  obtain rfl : u = state := by omega
  obtain ⟨hval, hskip⟩ := decodeSymbol_skip dt fast bitD u
  have hcells := cellsOf_pos (d.ge s hs.1) hs.2
  have hpos : 0 < (dt.cells u).nbBits := by
    rw [hd.nbBits u hu, hnumber]
    exact Tans.width_pos (by omega) (hhalf s hs.1)
  rw [hval, hskip, hd.symbol u hu, hsym]
  exact ⟨rfl, hh.reload_overflow hpos⟩

/-- The state of the next symbol, and the other one. -/
def FseDecoder.now (e : FseDecoder) : ℕ := if e.op % 2 = 0 then e.state1 else e.state2

def FseDecoder.other (e : FseDecoder) : ℕ := if e.op % 2 = 0 then e.state2 else e.state1

/-- The symbol of the next state, whichever it is. -/
def FseDecoder.get (dt : DTable) (fast : Bool) (e : FseDecoder) : FseDecoder :=
  if e.op % 2 = 0 then e.get1 dt fast else e.get2 dt fast

/-- The decoder has the symbols below `op`, and holds the rest. -/
structure DecInv (d : Distribution) (ct : CTable) (src : Mem) (n : ℕ) (cSrc : Mem) (cSrcSize : ℕ)
    (e : FseDecoder) (b : BitStack) (k : ℕ) : Prop where
  states : TwoStates ct (suffix src n e.op) (d.size + e.now) (d.size + e.other) b
  holds : ∃ p, e.bitD.Holds cSrc cSrcSize b p
  ready : e.bitD.Ready b k
  out : ∀ j < e.op, e.dst j = src j

theorem suffix_counts (hsrc : ∀ k < n, d.Counts (src k).toNat) (i : ℕ) :
    ∀ s ∈ suffix src n i, d.Counts s := fun s hs => by
  obtain ⟨k, hk, rfl⟩ := mem_suffix hs
  exact hsrc k hk

theorem DecInv.op_lt (h : DecInv d ct src n cSrc cSrcSize e b k) : e.op + 2 ≤ n := by
  have := h.states.two_le
  rw [suffix_length] at this
  omega

/-- What one symbol does to the decoder. -/
theorem FseDecoder.get_spec (dt : DTable) (fast : Bool) (e : FseDecoder) :
    (e.get dt fast).op = e.op + 1 ∧ (e.get dt fast).now = e.other ∧
      (e.get dt fast).other = (decodeSymbol dt fast e.bitD e.now).2.1 ∧
      (e.get dt fast).bitD = (decodeSymbol dt fast e.bitD e.now).2.2 ∧
      (e.get dt fast).dst = store e.dst e.op (UInt8.ofNat (decodeSymbol dt fast e.bitD e.now).1) := by
  by_cases h : e.op % 2 = 0
  · have h' : ¬ (e.op + 1) % 2 = 0 := by omega
    simp [get, get1, now, other, h, h']
  · have h' : (e.op + 1) % 2 = 0 := by omega
    simp [get, get2, now, other, h, h']

theorem store_out {m : Mem} {i : ℕ} (h : ∀ j < i, m j = src j) (hs : s = (src i).toNat) :
    ∀ j < i + 1, store m i (UInt8.ofNat s) j = src j := fun j hj => by
  by_cases hji : j = i
  · rw [hji, store_self, hs, UInt8.ofNat_toNat]
  · rw [store_ne _ _ hji]
    exact h j (by omega)

/-- A symbol with two after it. -/
theorem DecInv.get (h : DecInv d ct src n cSrc cSrcSize e b k) (fast : Bool) (hd : d.DecodedBy dt)
    (hc : d.CodedBy ct) (hlog : d.tableLog ≤ 14) (hfast : fast = true → dt.fastMode = true)
    (hsrc : ∀ k < n, d.Counts (src k).toNat) (hop : e.op + 2 < n) (hk : d.tableLog ≤ k) :
    ∃ b', DecInv d ct src n cSrc cSrcSize (e.get dt fast) b' (k - d.tableLog) := by
  obtain ⟨hop', hnow, hother, hbitD, hdst⟩ := FseDecoder.get_spec dt fast e
  obtain ⟨p, hh⟩ := h.holds
  have hst := h.states
  have hcounts := suffix_counts hsrc e.op
  rw [suffix_cons (by omega)] at hst hcounts
  obtain ⟨hsym, b', hst', hh', hr'⟩ := decodeSymbol_code hd hc hlog hfast hcounts
    (by rw [suffix_length]; omega) hst hh h.ready hk
  refine ⟨b', ?_, ⟨p, ?_⟩, ?_, ?_⟩
  · rw [hop', hnow, hother]
    exact hst'
  · rw [hbitD]
    exact hh'
  · rw [hbitD]
    exact hr'
  · rw [hop', hdst]
    exact store_out h.out hsym

/-- The last two symbols. -/
theorem DecInv.last (h : DecInv d ct src n cSrc cSrcSize e b k) (fast : Bool) (hd : d.DecodedBy dt)
    (hc : d.CodedBy ct) (hlog : d.tableLog ≤ 14)
    (hhalf : ∀ r ≤ d.maxSymbolValue, cellsOf d.nc r < 2 ^ d.tableLog)
    (hsrc : ∀ k < n, d.Counts (src k).toNat) (hop : e.op + 2 = n) :
    ((e.get dt fast).reload cSrc).1 = .overflow ∧
      (((e.get dt fast).reload cSrc).2.get dt fast).op = n ∧
      ∀ j < n, (((e.get dt fast).reload cSrc).2.get dt fast).dst j = src j := by
  obtain ⟨hop', hnow, hother, hbitD, hdst⟩ := FseDecoder.get_spec dt fast e
  obtain ⟨p, hh⟩ := h.holds
  have hst := h.states
  have hs := hsrc e.op (by omega)
  have ht := hsrc (e.op + 1) (by omega)
  rw [suffix_cons (by omega), suffix_cons (by omega), show e.op + 1 + 1 = n by omega, suffix_nil] at hst
  generalize hx : d.size + e.now = x at hst
  generalize hy : d.size + e.other = y at hst
  cases hst with
  | code _ hrest => exact absurd hrest.two_le (by simp)
  | last =>
    obtain ⟨hsym, hover⟩ := decodeSymbol_last fast hd hc hlog hhalf hs hx.symm hh
    obtain ⟨hop2, -, -, -, hdst2⟩ := FseDecoder.get_spec dt fast ((e.get dt fast).reload cSrc).2
    have hop1 : ((e.get dt fast).reload cSrc).2.op = e.op + 1 := hop'
    -- the other state still names its symbol
    have hsym2 : (decodeSymbol dt fast ((e.get dt fast).reload cSrc).2.bitD
        ((e.get dt fast).reload cSrc).2.now).1 = (src (e.op + 1)).toNat := by
      obtain ⟨u, hu, hfirst, husym, -⟩ := hc.firstState hlog ht.1 ht.2
      have hnow2 : ((e.get dt fast).reload cSrc).2.now = u := by
        have : ((e.get dt fast).reload cSrc).2.now = e.other := hnow
        omega
      rw [(decodeSymbol_skip dt fast _ _).1, hnow2, hd.symbol u hu, husym]
    refine ⟨?_, by omega, ?_⟩
    · show (DStream.reload cSrc (e.get dt fast).bitD).1 = .overflow
      rw [hbitD]
      exact hover
    · rw [hdst2, hop1, ← hop]
      refine store_out ?_ hsym2
      show ∀ j < e.op + 1, (e.get dt fast).dst j = src j
      rw [hdst]
      exact store_out h.out hsym

/-- A reload. -/
theorem DecInv.reload (h : DecInv d ct src n cSrc cSrcSize e b k) :
    DecInv d ct src n cSrc cSrcSize (e.reload cSrc).2 b 57 ∧ (e.reload cSrc).1 ≠ .overflow ∧
      ((e.reload cSrc).1 = .unfinished → 57 ≤ b.len) := by
  obtain ⟨p, hh⟩ := h.holds
  obtain ⟨⟨p', hh'⟩, hr', hover, hunf⟩ := hh.reload
  refine ⟨⟨h.states, ⟨p', hh'⟩, hr', h.out⟩, hover, fun hu => ?_⟩
  have hlen := hh'.len
  have := hunf hu
  omega

theorem get1_eq (h : e.op % 2 = 0) : e.get1 dt fast = e.get dt fast := by rw [FseDecoder.get, if_pos h]

theorem get2_eq (h : ¬ e.op % 2 = 0) : e.get2 dt fast = e.get dt fast := by rw [FseDecoder.get, if_neg h]

/-- **The loop of the decoder** keeps the invariant: `BIT_DStream_unfinished` means that four symbols
are there. -/
theorem DecInv.loop (maxDstSize : ℕ) (hd : d.DecodedBy dt) (hc : d.CodedBy ct) (hlog : d.tableLog ≤ 12)
    (hfast : fast = true → dt.fastMode = true) (hsrc : ∀ k < n, d.Counts (src k).toNat) :
    ∀ {e : FseDecoder} {b : BitStack} {k : ℕ}, DecInv d ct src n cSrc cSrcSize e b k → e.op % 2 = 0 →
      ∃ b', DecInv d ct src n cSrc cSrcSize (e.loop cSrc dt fast maxDstSize) b' 57 ∧
        (e.loop cSrc dt fast maxDstSize).op % 2 = 0 := by
  intro e
  induction e using FseDecoder.loop.induct cSrc dt fast maxDstSize with
  | case1 e hgo ih =>
    intro b k h heven
    obtain ⟨h0, -, hmany⟩ := h.reload
    have hbits := hmany hgo.1
    have hcost := h.states.len_le hc (by omega) (suffix_counts hsrc e.op)
    rw [suffix_length] at hcost
    have hleft : 6 < n - e.op := by
      have hmono : d.tableLog * (n - e.op - 2) ≤ 12 * (n - e.op - 2) := Nat.mul_le_mul_right _ hlog
      omega
    have hop0 : (e.reload cSrc).2.op = e.op := rfl
    obtain ⟨b1, h1⟩ := h0.get fast hd hc (by omega) hfast hsrc (by omega) (by omega)
    have hop1 := (FseDecoder.get_spec dt fast (e.reload cSrc).2).1
    obtain ⟨b2, h2⟩ := h1.get fast hd hc (by omega) hfast hsrc (by omega) (by omega)
    have hop2 := (FseDecoder.get_spec dt fast ((e.reload cSrc).2.get dt fast)).1
    obtain ⟨b3, h3⟩ := h2.get fast hd hc (by omega) hfast hsrc (by omega) (by omega)
    have hop3 := (FseDecoder.get_spec dt fast (((e.reload cSrc).2.get dt fast).get dt fast)).1
    obtain ⟨b4, h4⟩ := h3.get fast hd hc (by omega) hfast hsrc (by omega) (by omega)
    have hop4 := (FseDecoder.get_spec dt fast ((((e.reload cSrc).2.get dt fast).get dt fast).get dt fast)).1
    have hfour : ((((e.reload cSrc).2.get1 dt fast).get2 dt fast).get1 dt fast).get2 dt fast =
        ((((e.reload cSrc).2.get dt fast).get dt fast).get dt fast).get dt fast := by
      rw [get1_eq (e := (e.reload cSrc).2) (by omega), get2_eq (e := (e.reload cSrc).2.get dt fast) (by omega),
        get1_eq (e := ((e.reload cSrc).2.get dt fast).get dt fast) (by omega), get2_eq (by omega)]
    rw [FseDecoder.loop, if_pos hgo]
    refine ih (hfour ▸ h4) ?_
    rw [hfour]
    omega
  | case2 e hstop =>
    intro b k h heven
    rw [FseDecoder.loop, if_neg hstop]
    exact ⟨b, h.reload.1, heven⟩

/-- **The tail of the decoder** ends with the last symbol. -/
theorem DecInv.tail (hd : d.DecodedBy dt) (hc : d.CodedBy ct) (hlog : d.tableLog ≤ 12)
    (hfast : fast = true → dt.fastMode = true)
    (hhalf : ∀ r ≤ d.maxSymbolValue, cellsOf d.nc r < 2 ^ d.tableLog)
    (hsrc : ∀ k < n, d.Counts (src k).toNat) (hmax : n ≤ maxDstSize) :
    ∀ (m : ℕ) {e : FseDecoder} {b : BitStack}, n - e.op ≤ m →
      DecInv d ct src n cSrc cSrcSize e b 57 → e.op % 2 = 0 →
      ∃ e', e.tail cSrc dt fast maxDstSize = .ok e' ∧ e'.op = n ∧ ∀ j < n, e'.dst j = src j := by
  intro m
  induction m with
  | zero =>
    intro e b hm h _
    exact absurd h.op_lt (by omega)
  | succ m ih =>
    intro e b hm h heven
    have hlt := h.op_lt
    have hop1 : ((e.get dt fast).reload cSrc).2.op = e.op + 1 := (FseDecoder.get_spec dt fast e).1
    have hop2 : (((((e.get dt fast).reload cSrc).2.get dt fast).reload cSrc).2).op = e.op + 1 + 1 := by
      rw [← hop1]
      exact (FseDecoder.get_spec dt fast ((e.get dt fast).reload cSrc).2).1
    rw [FseDecoder.tail, if_neg (by omega), get1_eq heven]
    dsimp only
    rw [get2_eq (e := ((e.get dt fast).reload cSrc).2) (by omega),
      get1_eq (e := ((((e.get dt fast).reload cSrc).2.get dt fast).reload cSrc).2) (by omega)]
    by_cases hend : e.op + 2 = n
    · obtain ⟨hover, hop, hout⟩ := h.last fast hd hc (by omega) hhalf hsrc hend
      rw [if_pos hover]
      exact ⟨_, rfl, hop, hout⟩
    · obtain ⟨b1, h1⟩ := h.get fast hd hc (by omega) hfast hsrc (by omega) (by omega)
      obtain ⟨h2, hover, -⟩ := h1.reload
      rw [if_neg hover, if_neg (by omega)]
      by_cases hend2 : ((e.get dt fast).reload cSrc).2.op + 2 = n
      · obtain ⟨hover2, hop, hout⟩ := h2.last fast hd hc (by omega) hhalf hsrc hend2
        rw [if_pos hover2]
        exact ⟨_, rfl, hop, hout⟩
      · obtain ⟨b3, h3⟩ := h2.get fast hd hc (by omega) hfast hsrc (by omega) (by omega)
        obtain ⟨h4, hover2, -⟩ := h3.reload
        rw [if_neg hover2]
        exact ih (by omega) h4 (by omega)

end Decoder

/-! ## The round trip -/

section RoundTrip

variable {d : Distribution} {ct : CTable} {dt : DTable} {src dst : Mem} {n cap : ℕ}

/-- The decoder of a stream that holds what the coder left. -/
theorem decompress_holds (hd : d.DecodedBy dt) (hc : d.CodedBy ct) (hlog : d.tableLog ≤ 12)
    (hhalf : ∀ r ≤ d.maxSymbolValue, cellsOf d.nc r < 2 ^ d.tableLog)
    (hsrc : ∀ k < n, d.Counts (src k).toNat) {b : BitStack} {x y : ℕ}
    (hst : TwoStates ct (suffix src n 0) x y b) {cSrc : Mem} {cSrcSize : ℕ} (hsize : 1 ≤ cSrcSize)
    (hlast : cSrc (cSrcSize - 1) ≠ 0)
    (hstack : DStream.stackOf cSrc cSrcSize = (b.push d.tableLog y).push d.tableLog x)
    (out : Mem) {maxDstSize : ℕ} (hmax : n ≤ maxDstSize) :
    ∃ out', decompressUsingDTable out maxDstSize cSrc cSrcSize dt = .ok (n, out') ∧
      ∀ j < n, out' j = src j := by
  obtain ⟨bitD, p, hopen, hh, hr⟩ := DStream.init_holds hsize hlast
  rw [hstack] at hh hr
  obtain ⟨hx, hy⟩ := hst.states hc (by omega) (suffix_counts hsrc 0)
  have hlow : ∀ z, Tans.State d.tableLog z → z % 2 ^ d.tableLog = z - d.size := fun z hz => by
    have hlt := hz.2
    rw [Nat.pow_succ'] at hlt
    rw [Nat.mod_eq_sub_mod hz.1, Nat.mod_eq_of_lt (by omega)]
    rfl
  -- both states are read off the top
  obtain ⟨hv1, hh1, -⟩ := hh.readBits (n := d.tableLog) hr (by omega)
    (by rw [BitStack.push_len]; exact Nat.le_add_left _ _)
  rw [BitStack.top_push, hlow x hx] at hv1
  rw [BitStack.pop_push] at hh1
  obtain ⟨⟨p1, hh1⟩, hr1, -, -⟩ := hh1.reload
  obtain ⟨hv2, hh2, -⟩ := hh1.readBits (n := d.tableLog) hr1 (by omega)
    (by rw [BitStack.push_len]; exact Nat.le_add_left _ _)
  rw [BitStack.top_push, hlow y hy] at hv2
  rw [BitStack.pop_push] at hh2
  obtain ⟨⟨p2, hh2⟩, hr2, -, -⟩ := hh2.reload
  have hgen : ∀ fast, (fast = true → dt.fastMode = true) →
      ∃ out', decompressUsingDTableGeneric out maxDstSize cSrc cSrcSize dt fast = .ok (n, out') ∧
        ∀ j < n, out' j = src j := fun fast hfast => by
    set s1 := initDState cSrc dt bitD with hs1
    set s2 := initDState cSrc dt s1.2 with hs2
    have hs1v : s1.1 = x - d.size := by rw [hs1, initDState, hd.tableLog, hv1]
    have hs1d : s1.2 = (DStream.reload cSrc (bitD.readBits d.tableLog).2).2 := by
      rw [hs1, initDState, hd.tableLog]
    have hs2v : s2.1 = y - d.size := by rw [hs2, initDState, hs1d, hd.tableLog, hv2]
    have hs2d : s2.2.Holds cSrc cSrcSize b p2 ∧ s2.2.Ready b 57 := by
      rw [hs2, initDState, hs1d, hd.tableLog]
      exact ⟨hh2, hr2⟩
    have hinv : DecInv d ct src n cSrc cSrcSize
        { bitD := s2.2, state1 := s1.1, state2 := s2.1, op := 0, dst := out } b 57 := by
      refine ⟨?_, ⟨p2, hs2d.1⟩, hs2d.2, fun j hj => absurd hj (Nat.not_lt_zero j)⟩
      show TwoStates ct (suffix src n 0) (d.size + s1.1) (d.size + s2.1) b
      have hxs : d.size + (x - d.size) = x := Nat.add_sub_cancel' hx.1
      have hys : d.size + (y - d.size) = y := Nat.add_sub_cancel' hy.1
      rw [hs1v, hs2v, hxs, hys]
      exact hst
    obtain ⟨h0, hover, -⟩ := hinv.reload
    obtain ⟨b', h1, heven⟩ := h0.loop maxDstSize hd hc hlog hfast hsrc rfl
    obtain ⟨e', htail, hop, hout⟩ :=
      DecInv.tail hd hc hlog hfast hhalf hsrc hmax _ le_rfl h1 heven
    refine ⟨e'.dst, ?_, hout⟩
    rw [decompressUsingDTableGeneric, hopen]
    dsimp only
    rw [← hs1, ← hs2, if_neg hover, htail]
    dsimp only
    rw [hop]
  rw [decompressUsingDTable]
  split_ifs with hfast
  · exact hgen true fun _ => hfast
  · exact hgen false fun h => absurd h Bool.false_ne_true

/-- A stream that closed well was before its end when the states were flushed. -/
theorem flushCState_ptr {c : CStream} {v w : ℕ}
    (h : (flushCState ct (flushCState ct c v) w).close.1 ≠ 0) : c.ptr < c.endPtr := by
  have hlater : Later c ((flushCState ct (flushCState ct c v) w).addBitsFast 1 1).flushBits :=
    (later_flushBits (c.addBits v ct.tableLog)).trans
      ((later_flushBits ((flushCState ct c v).addBits w ct.tableLog)).trans
        (later_flushBits ((flushCState ct (flushCState ct c v) w).addBitsFast 1 1)))
  have hend := hlater.1
  refine hlater.2 (Nat.lt_of_not_le fun hle => h ?_)
  show (if _ ≤ _ then 0 else _) = 0
  rw [if_pos]
  rw [hend]
  exact hle

/-- **Where the checked coder fits the unchecked one does the same.** -/
theorem compress_fast (hn : 2 < n) (hcap : 8 < cap)
    (hfit : (compressUsingCTableGeneric dst cap src n ct false).1 ≠ 0) (fast : Bool) :
    compressUsingCTableGeneric dst cap src n ct fast =
      compressUsingCTableGeneric dst cap src n ct false := by
  obtain ⟨bitC, -, hh, -, hrun⟩ :=
    compressUsingCTableGeneric_eq ct src dst hn hcap
  rw [hrun false] at hfit
  have hptr := flushCState_ptr hfit
  have hend := (finish_later ct src n bitC).1
  rw [hrun, hrun, finish_fast (hend ▸ hptr)]

end RoundTrip

/-- **Round trip of an FSE stream.**  Over the tables of a distribution in which no symbol has every
cell, the checked coder writes a source of more than two symbols that all count inside the capacity,
and it fits where `tableLog` bits a symbol do.  Where it fits, `FSE_compress_usingCTable` gives the
same bytes, so stays inside as well, and their decoder, in whichever mode the table asks for, gives
back the source and its size.  Up to table log 8 `FSE_compress_usingCTable` always stays inside. -/
theorem fse_roundTrip (d : Distribution) (hlog : d.tableLog ≤ 12)
    (hhalf : ∀ s ≤ d.maxSymbolValue, cellsOf d.nc s < 2 ^ d.tableLog)
    {ct0 ct : CTable} {dt0 dt : DTable} {tableSymbol : ℕ → ℕ} {cSpread dSpread : Mem} {cWksp dWksp : ℕ}
    (hct : buildCTable ct0 d.nc d.maxSymbolValue d.tableLog tableSymbol cSpread cWksp = .ok ct)
    (hdt : buildDTable dt0 d.nc d.maxSymbolValue d.tableLog dSpread dWksp = .ok dt)
    (src : Mem) {n : ℕ} (hn : 2 < n) (hsrc : ∀ k < n, d.Counts (src k).toNat)
    (dst : Mem) {cap : ℕ} (hcap : 8 < cap) :
    (∀ j, cap ≤ j → (compressUsingCTableGeneric dst cap src n ct false).2 j = dst j) ∧
      (d.tableLog ≤ 8 → ∀ j, cap ≤ j → (compressUsingCTable dst cap src n ct).2 j = dst j) ∧
      ((d.tableLog * n + 1) / 8 + 8 < cap → (compressUsingCTableGeneric dst cap src n ct false).1 ≠ 0) ∧
      ((compressUsingCTableGeneric dst cap src n ct false).1 ≠ 0 →
        compressUsingCTable dst cap src n ct = compressUsingCTableGeneric dst cap src n ct false ∧
        (∀ j, cap ≤ j → (compressUsingCTable dst cap src n ct).2 j = dst j) ∧
        ∀ (cSrc out : Mem) (maxDstSize : ℕ), n ≤ maxDstSize →
          Agree cSrc (compressUsingCTable dst cap src n ct).2 (compressUsingCTable dst cap src n ct).1 →
          ∃ out', decompressUsingDTable out maxDstSize cSrc (compressUsingCTable dst cap src n ct).1 dt =
              .ok (n, out') ∧ Agree out' src n) := by
  have hc := d.buildCTable_spec hct
  have hd : d.DecodedBy dt := by
    have hwksp : buildDTableWorkspaceSize d.tableLog d.maxSymbolValue ≤ dWksp := by
      by_contra hlt
      rw [buildDTable, if_pos (Nat.lt_of_not_le hlt)] at hdt
      cases hdt
    obtain ⟨dt', hdt', hd⟩ := d.buildDTable_spec hlog dt0 dSpread hwksp
    rw [hdt, Except.ok.injEq] at hdt'
    exact hdt' ▸ hd
  obtain ⟨c, b, x, y, hst, hclose, hpos, hholds⟩ := compress_holds dst hc hlog hsrc hn hcap
  obtain ⟨hsize, hval, hkept⟩ := hholds.close hpos
  rw [← hclose] at hsize hval hkept
  have hlen := hst.len_le hc (by omega) (suffix_counts hsrc 0)
  rw [suffix_length, Nat.sub_zero] at hlen
  have hfits : (d.tableLog * n + 1) / 8 + 8 < cap →
      (compressUsingCTableGeneric dst cap src n ct false).1 ≠ 0 := by
    intro hroom
    have htotal : ((b.push d.tableLog y).push d.tableLog x).len ≤ d.tableLog * n := by
      rw [BitStack.push_len, BitStack.push_len]
      calc b.len + d.tableLog + d.tableLog ≤ d.tableLog * (n - 2) + d.tableLog * 2 := by omega
        _ = d.tableLog * n := by rw [← Nat.mul_add, Nat.sub_add_cancel (by omega)]
    rw [hsize, if_pos (by omega)]
    exact Nat.succ_ne_zero _
  have hsame : (cap < blockBound n ∨ (compressUsingCTableGeneric dst cap src n ct false).1 ≠ 0) →
      compressUsingCTable dst cap src n ct = compressUsingCTableGeneric dst cap src n ct false := by
    intro hor
    rw [compressUsingCTable]
    split_ifs with hfast
    · exact compress_fast hn hcap (hor.resolve_left (by omega)) true
    · rfl
  refine ⟨hkept, fun h8 => ?_, hfits, fun hfit => ?_⟩
  · -- from the block bound on, eight bits a symbol fit
    have hbound : n + 12 ≤ blockBound n := by rw [blockBound]; omega
    have hbits : d.tableLog * n ≤ 8 * n := Nat.mul_le_mul_right n h8
    rw [hsame (or_iff_not_imp_left.mpr fun hge => hfits (by omega))]
    exact hkept
  have hsame := hsame (.inr hfit)
  refine ⟨hsame, by rw [hsame]; exact hkept, fun cSrc out maxDstSize hmax hagree => ?_⟩
  rw [hsame] at hagree ⊢
  have hsz : (compressUsingCTableGeneric dst cap src n ct false).1 =
      ((b.push d.tableLog y).push d.tableLog x).len / 8 + 1 := by
    rw [hsize]
    rw [hsize] at hfit
    split_ifs at hfit ⊢ with hroom
    · rfl
    · exact absurd rfl hfit
  have hbytes : leValue cSrc 0 (compressUsingCTableGeneric dst cap src n ct false).1 =
      leValue (compressUsingCTableGeneric dst cap src n ct false).2 0
        (compressUsingCTableGeneric dst cap src n ct false).1 :=
    leValue_congr fun k hk => by rw [Nat.zero_add]; exact hagree k hk
  obtain ⟨hmark, hstack⟩ := DStream.stackOf_mark hsz (hbytes.trans (hval hfit))
  exact decompress_holds hd hc hlog hhalf hsrc hst (by omega) hmark hstack out hmax

theorem fse_roundTrip_three :
    ∃ ct dt, buildCTable ⟨0, 0, fun _ => 0, fun _ => ⟨0, 0⟩⟩ threeSymbols.nc 2 5 (fun _ => 0)
        (fun _ => 0) 100 = .ok ct ∧
      buildDTable ⟨0, true, fun _ => ⟨0, 0, 0⟩⟩ threeSymbols.nc 2 5 (fun _ => 0) 100 = .ok dt ∧
      (∀ j, 32 ≤ j → (compressUsingCTable (fun _ => 0) 32 (fun i => UInt8.ofNat (i % 3)) 4 ct).2 j = 0) ∧
      ∃ out', decompressUsingDTable (fun _ => 0) 4
          (compressUsingCTable (fun _ => 0) 32 (fun i => UInt8.ofNat (i % 3)) 4 ct).2
          (compressUsingCTable (fun _ => 0) 32 (fun i => UInt8.ofNat (i % 3)) 4 ct).1 dt =
            .ok (4, out') ∧ Agree out' (fun i => UInt8.ofNat (i % 3)) 4 := by
  obtain ⟨ct, hct⟩ := threeSymbols.buildCTable_ok ⟨0, 0, fun _ => 0, fun _ => ⟨0, 0⟩⟩
    (fun _ => 0) (fun _ => 0) (show buildCTableWorkspaceSize 2 5 ≤ 100 by decide)
  obtain ⟨dt, hdt, -⟩ := threeSymbols.buildDTable_spec (by decide) ⟨0, true, fun _ => ⟨0, 0, 0⟩⟩
    (fun _ => 0) (show buildDTableWorkspaceSize 5 2 ≤ 100 by decide)
  have hsrc : ∀ k < 4, threeSymbols.Counts ((fun i => UInt8.ofNat (i % 3)) k).toNat := by
    unfold Distribution.Counts
    decide
  obtain ⟨-, hinside, hfits, hback⟩ := fse_roundTrip threeSymbols (by decide) (by decide) hct hdt
    (fun i => UInt8.ofNat (i % 3)) (n := 4) (by decide) hsrc (fun _ => 0) (show 8 < 32 by decide)
  obtain ⟨-, -, hdecode⟩ := hback (hfits (by decide))
  exact ⟨ct, dt, hct, hdt, hinside (by decide), hdecode _ _ 4 le_rfl (Agree.refl _ _)⟩

end ZramUpgrade.Zstd
