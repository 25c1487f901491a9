import ZramUpgrade.Lib.Loop
import ZramUpgrade.Zstd.FseTable

/-!
# Zstd.Normalize — `FSE_normalizeCount`

Counts are scaled to the cells of a table.  Every symbol that occurs gets a cell at least, and what the
rounding leaves over goes to the largest; where that takes too much of it, `FSE_normalizeM2` starts
again from the small counts.  Either way the result is a distribution of the symbols that occur
(`normalizeCount_distribution`).
-/

namespace ZramUpgrade.Zstd

open Lib

/-! ## The table log -/

/-- `FSE_minTableLog`. -/
def minTableLog (srcSize maxSymbolValue : ℕ) : ℕ :=
  let minBitsSrc := highbit32 srcSize + 1
  let minBitsSymbols := highbit32 maxSymbolValue + 2
  if minBitsSrc < minBitsSymbols then minBitsSrc else minBitsSymbols

/-- `FSE_optimalTableLog_internal`; `maxBitsSrc` is a `U32`, and wraps around below 0. -/
def optimalTableLogInternal (maxTableLog srcSize maxSymbolValue minus : ℕ) : ℕ :=
  let maxBitsSrc := if highbit32 (srcSize - 1) < minus then 2 ^ 32 - (minus - highbit32 (srcSize - 1))
    else highbit32 (srcSize - 1) - minus
  let minBits := minTableLog srcSize maxSymbolValue
  let tableLog := if maxTableLog = 0 then 11 else maxTableLog
  let tableLog := if maxBitsSrc < tableLog then maxBitsSrc else tableLog
  let tableLog := if tableLog < minBits then minBits else tableLog
  let tableLog := if tableLog < 5 then 5 else tableLog
  if 12 < tableLog then 12 else tableLog

/-- `FSE_optimalTableLog`. -/
def optimalTableLog (maxTableLog srcSize maxSymbolValue : ℕ) : ℕ :=
  optimalTableLogInternal maxTableLog srcSize maxSymbolValue 2

/-! ## The first method -/

/-- The locals of `FSE_normalizeCount`. -/
structure Normalizer where
  stillToDistribute : ℤ
  largest : ℕ
  largestP : ℕ
  norm : ℕ → ℤ

/-- `rtbTable`. -/
def rtbTable (proba : ℕ) : ℕ := [0, 473195, 504333, 520860, 550000, 700000, 750000, 830000].getD proba 0

/-- The cells of a count, rounded up where the rest beats the table's. -/
def probaOf (tableLog total count : ℕ) : ℕ :=
  let scale := 62 - tableLog
  let step := 2 ^ 62 / total
  let vStep := 1 <<< (scale - 20)
  let proba := (count * step) >>> scale
  if proba < 8 then
    proba + if vStep * rtbTable proba < count * step - proba <<< scale then 1 else 0
  else proba

/-- A symbol; where it is the only one, the counts so far. -/
def Normalizer.step (tableLog : ℕ) (count : ℕ → ℕ) (total : ℕ) (lowProbCount : ℤ) (st : Normalizer)
    (s : ℕ) : Except (ℕ → ℤ) Normalizer :=
  if count s = total then .error st.norm
  else if count s = 0 then .ok { st with norm := Function.update st.norm s 0 }
  else if count s ≤ total >>> tableLog then
    .ok { st with
      norm := Function.update st.norm s lowProbCount, stillToDistribute := st.stillToDistribute - 1 }
  else
    let proba := probaOf tableLog total (count s)
    .ok
      { stillToDistribute := st.stillToDistribute - proba
        largest := if st.largestP < proba then s else st.largest
        largestP := if st.largestP < proba then proba else st.largestP
        norm := Function.update st.norm s proba }

/-! ## The second method -/

/-- The locals of `FSE_normalizeM2`. -/
structure NormalizerM2 where
  distributed : ℕ
  total : ℕ
  norm : ℕ → ℤ

/-- `NOT_YET_ASSIGNED`. -/
def notYetAssigned : ℤ := -2

/-- The symbol gets `cells`. -/
def NormalizerM2.assign (count : ℕ → ℕ) (st : NormalizerM2) (s : ℕ) (cells : ℤ) : NormalizerM2 :=
  { distributed := st.distributed + 1, total := st.total - count s
    norm := Function.update st.norm s cells }

/-- Init: the small counts. -/
def NormalizerM2.init (count : ℕ → ℕ) (lowThreshold lowOne : ℕ) (lowProbCount : ℤ) (st : NormalizerM2)
    (s : ℕ) : NormalizerM2 :=
  if count s = 0 then { st with norm := Function.update st.norm s 0 }
  else if count s ≤ lowThreshold then st.assign count s lowProbCount
  else if count s ≤ lowOne then st.assign count s 1
  else { st with norm := Function.update st.norm s notYetAssigned }

/-- Risk of rounding to zero: more of them. -/
def NormalizerM2.more (count : ℕ → ℕ) (lowOne : ℕ) (st : NormalizerM2) (s : ℕ) : NormalizerM2 :=
  if st.norm s = notYetAssigned ∧ count s ≤ lowOne then st.assign count s 1 else st

/-- `ToDistribute`, a `U32`. -/
def toDistribute (tableLog distributed : ℕ) : ℕ := (1 <<< tableLog + 2 ^ 32 - distributed) % 2 ^ 32

/-- The first symbol with the highest count: `maxV` and `maxC`. -/
def maxCount (count : ℕ → ℕ) (maxSymbolValue : ℕ) : ℕ × ℕ :=
  (List.range (maxSymbolValue + 1)).foldl (fun m s => if m.2 < count s then (s, count s) else m) (0, 0)

/-- `for (s=0; ToDistribute > 0; s = (s+1)%(maxSymbolValue+1))`. -/
def roundRobin (maxSymbolValue : ℕ) : ℕ → ℕ → ℕ → (ℕ → ℤ) → ℕ → ℤ
  | 0, _, _, norm => norm
  | fuel + 1, s, toDistribute, norm =>
    if 0 < toDistribute then
      if 0 < norm s then
        roundRobin maxSymbolValue fuel ((s + 1) % (maxSymbolValue + 1)) (toDistribute - 1)
          (Function.update norm s (norm s + 1))
      else roundRobin maxSymbolValue fuel ((s + 1) % (maxSymbolValue + 1)) toDistribute norm
    else norm

/-- A symbol's part of what is left: `tmpTotal` and the counts. -/
def scaleStep (count : ℕ → ℕ) (vStepLog rStep : ℕ) (st : ℕ × (ℕ → ℤ)) (s : ℕ) :
    Except ErrorCode (ℕ × (ℕ → ℤ)) :=
  if st.2 s = notYetAssigned then
    let fin := st.1 + count s * rStep
    let weight := fin >>> vStepLog - st.1 >>> vStepLog
    if weight < 1 then .error .generic
    else .ok (fin, Function.update st.2 s weight)
  else .ok st

/-- `FSE_normalizeM2`. -/
def normalizeM2 (norm : ℕ → ℤ) (tableLog : ℕ) (count : ℕ → ℕ) (total maxSymbolValue : ℕ)
    (lowProbCount : ℤ) : Except ErrorCode (ℕ → ℤ) :=
  let lowThreshold := total >>> tableLog
  let lowOne := (total * 3) >>> (tableLog + 1)
  let st := (List.range (maxSymbolValue + 1)).foldl
    (NormalizerM2.init count lowThreshold lowOne lowProbCount) ⟨0, total, norm⟩
  let left := toDistribute tableLog st.distributed
  if left = 0 then .ok st.norm
  else
    let st := if lowOne < st.total / left
      then (List.range (maxSymbolValue + 1)).foldl
        (NormalizerM2.more count ((st.total * 3) / (left * 2) % 2 ^ 32)) st
      else st
    let left := toDistribute tableLog st.distributed
    if st.distributed = maxSymbolValue + 1 then
      let maxV := (maxCount count maxSymbolValue).1
      .ok (Function.update st.norm maxV (st.norm maxV + left))
    else if st.total = 0 then .ok (roundRobin maxSymbolValue (left * (maxSymbolValue + 1)) 0 left st.norm)
    else
      let vStepLog := 62 - tableLog
      let mid := 1 <<< (vStepLog - 1) - 1
      let rStep := ((1 <<< vStepLog) * left + mid) / st.total
      match (List.range (maxSymbolValue + 1)).foldlM (scaleStep count vStepLog rStep) (mid, st.norm) with
      | .error e => .error e
      | .ok r => .ok r.2

/-- `FSE_normalizeCount`: the table log, 0 where there is one symbol only, and the counts. -/
def normalizeCount (norm : ℕ → ℤ) (tableLog : ℕ) (count : ℕ → ℕ) (total maxSymbolValue : ℕ)
    (useLowProbCount : Bool) : Except ErrorCode (ℕ × (ℕ → ℤ)) :=
  let tableLog := if tableLog = 0 then 11 else tableLog
  if tableLog < 5 then .error .generic
  else if 12 < tableLog then .error .tableLogTooLarge
  else if tableLog < minTableLog total maxSymbolValue then .error .generic
  else
    let lowProbCount : ℤ := if useLowProbCount then -1 else 1
    match (List.range (maxSymbolValue + 1)).foldlM (Normalizer.step tableLog count total lowProbCount)
      ⟨(1 <<< tableLog : ℕ), 0, 0, norm⟩ with
    | .error norm => .ok (0, norm)
    | .ok st =>
      if st.norm st.largest / 2 ≤ -st.stillToDistribute then
        match normalizeM2 st.norm tableLog count total maxSymbolValue lowProbCount with
        | .error e => .error e
        | .ok norm => .ok (tableLog, norm)
      else
        .ok (tableLog, Function.update st.norm st.largest (st.norm st.largest + st.stillToDistribute))

/-! ## What the counts come to -/

/-- The counts fill the table, and the symbols that occur have cells. -/
structure Normalized (count : ℕ → ℕ) (maxSymbolValue tableLog : ℕ) (nc : ℕ → ℤ) : Prop where
  ge : ∀ s ≤ maxSymbolValue, -1 ≤ nc s
  zero_iff : ∀ s ≤ maxSymbolValue, nc s = 0 ↔ count s = 0
  sum_eq : cumul nc (maxSymbolValue + 1) = 2 ^ tableLog

variable {count : ℕ → ℕ} {maxSymbolValue tableLog total k s : ℕ} {nc norm : ℕ → ℤ}

theorem cellsOf_of_pos {c : ℤ} (h : 0 < c) : cellsOf (Function.update nc s c) s = c.toNat := by
  rw [cellsOf, Function.update_self, if_neg (by omega)]

/-- Cells given to a symbol that had none. -/
theorem cumul_give {c : ℤ} (hs : s < k) (h0 : cellsOf nc s = 0) (hc : 0 < c) :
    cumul (Function.update nc s c) k = cumul nc k + c.toNat := by
  have := cumul_update_lt nc (c := c) hs
  rw [cellsOf_of_pos hc] at this
  omega

theorem cumul_le (h : ∀ s < k, cellsOf nc s ≤ 1) : cumul nc k ≤ k := by
  induction k with
  | zero => exact le_rfl
  | succ k ih =>
    have h1 := ih fun s hs => h s (by omega)
    have h2 := h k (Nat.lt_succ_self k)
    rw [cumul]
    omega

/-- Full of single cells: each symbol has one. -/
theorem cells_of_cumul_eq (h : ∀ s < k, cellsOf nc s ≤ 1) (heq : cumul nc k = k) (hs : s < k) :
    cellsOf nc s = 1 := by
  induction k with
  | zero => omega
  | succ k ih =>
    have h1 := cumul_le fun s hs => h s (Nat.lt_succ_of_lt hs)
    have h2 := h k (Nat.lt_succ_self k)
    rw [cumul] at heq
    rcases Nat.lt_succ_iff_lt_or_eq.mp hs with hlt | rfl
    · exact ih (fun s hs => h s (by omega)) (by omega) hlt
    · omega

/-- The table is large enough for the symbols or for the counts. -/
theorem minTableLog_le (h : minTableLog total maxSymbolValue ≤ tableLog) :
    total < 2 ^ tableLog ∨ 2 * (maxSymbolValue + 1) ≤ 2 ^ tableLog := by
  rw [minTableLog] at h
  split at h
  · exact .inl (Nat.lt_of_lt_of_le Nat.lt_log2_self (Nat.pow_le_pow_right (by omega) h))
  · right
    have hlt : maxSymbolValue < 2 ^ (highbit32 maxSymbolValue + 1) := Nat.lt_log2_self
    have hpow : 2 ^ (highbit32 maxSymbolValue + 2) ≤ 2 ^ tableLog :=
      Nat.pow_le_pow_right (by omega) h
    rw [show highbit32 maxSymbolValue + 2 = highbit32 maxSymbolValue + 1 + 1 by omega,
      Nat.pow_succ] at hpow
    omega

/-- **A symbol beats the threshold** for a cell of low probability. -/
theorem exists_big (hsum : ∑ s ∈ Finset.range (maxSymbolValue + 1), count s = total) (h0 : 0 < total)
    (hmin : minTableLog total maxSymbolValue ≤ tableLog) :
    ∃ s ≤ maxSymbolValue, total >>> tableLog < count s := by
  by_contra hno
  push Not at hno
  have hle : total ≤ (maxSymbolValue + 1) * (total >>> tableLog) := by
    calc total = ∑ s ∈ Finset.range (maxSymbolValue + 1), count s := hsum.symm
      _ ≤ ∑ _s ∈ Finset.range (maxSymbolValue + 1), total >>> tableLog :=
        Finset.sum_le_sum fun s hs => hno s (by have := Finset.mem_range.mp hs; omega)
      _ = _ := by rw [Finset.sum_const, Finset.card_range, smul_eq_mul]
  rw [Nat.shiftRight_eq_div_pow] at hle
  rcases minTableLog_le hmin with h | h
  · rw [Nat.div_eq_of_lt h] at hle
    omega
  · have hq : 0 < total / 2 ^ tableLog := by
      by_contra hq
      rw [Nat.eq_zero_of_not_pos hq] at hle
      omega
    have := Nat.mul_lt_mul_of_pos_right (show maxSymbolValue + 1 < 2 ^ tableLog by omega) hq
    have := Nat.mul_div_le total (2 ^ tableLog)
    omega

theorem cumul_lt_of_none (h : ∀ s < k, cellsOf nc s ≤ 1) (hs : s < k) (h0 : cellsOf nc s = 0) :
    cumul nc k < k := by
  refine lt_of_le_of_ne (cumul_le h) fun heq => ?_
  rw [cells_of_cumul_eq h heq hs] at h0
  exact absurd h0 (by decide)

/-! ## The first method gives a distribution -/

theorem probaOf_pos (hc : 0 < s) (h0 : 0 < total) (h62 : total ≤ 2 ^ 62) :
    0 < probaOf tableLog total s := by
  have hstep : 0 < 2 ^ 62 / total := Nat.div_pos h62 h0
  rw [probaOf]
  split
  · rcases Nat.eq_zero_or_pos ((s * (2 ^ 62 / total)) >>> (62 - tableLog)) with hz | hpos
    · rw [hz, Nat.zero_shiftLeft, Nat.sub_zero, show rtbTable 0 = 0 from rfl, Nat.mul_zero,
        if_pos (Nat.mul_pos hc hstep)]
      omega
    · omega
  · omega

/-- After `k` symbols: what is left with the cells fills the table, and the largest is known once a symbol
beats the threshold. -/
structure Normalizer.Inv (tableLog : ℕ) (count : ℕ → ℕ) (total k : ℕ) (st : Normalizer) : Prop where
  ge : ∀ s < k, -1 ≤ st.norm s
  zero_iff : ∀ s < k, st.norm s = 0 ↔ count s = 0
  sum_eq : st.stillToDistribute + cumul st.norm k = 2 ^ tableLog
  largest : (st.largest < k ∧ st.norm st.largest = st.largestP ∧ 0 < st.largestP) ∨
    (st.largestP = 0 ∧ ∀ s < k, count s ≤ total >>> tableLog)

theorem Normalizer.Inv.step {st st' : Normalizer} {low : ℤ} (h : Normalizer.Inv tableLog count total k st)
    (hlow : low = -1 ∨ low = 1) (h0 : 0 < total) (h62 : total ≤ 2 ^ 62)
    (hrun : Normalizer.step tableLog count total low st k = .ok st') :
    Normalizer.Inv tableLog count total (k + 1) st' := by
  -- the counts so far stand, and the new one is `c`
  have hold : ∀ c : ℤ, ∀ s < k, Function.update st.norm k c s = st.norm s := fun c s hs =>
    Function.update_of_ne (by omega) _ _
  have hge : ∀ c : ℤ, -1 ≤ c → ∀ s < k + 1, -1 ≤ Function.update st.norm k c s := fun c hc s hs => by
    rcases Nat.lt_succ_iff_lt_or_eq.mp hs with hlt | rfl
    · rw [hold c s hlt]
      exact h.ge s hlt
    · rwa [Function.update_self]
  have hzero : ∀ c : ℤ, (c = 0 ↔ count k = 0) →
      ∀ s < k + 1, Function.update st.norm k c s = 0 ↔ count s = 0 := fun c hc s hs => by
    rcases Nat.lt_succ_iff_lt_or_eq.mp hs with hlt | rfl
    · rw [hold c s hlt]
      exact h.zero_iff s hlt
    · rwa [Function.update_self]
  have hcumul : ∀ c : ℤ, cumul (Function.update st.norm k c) (k + 1) =
      cumul st.norm k + cellsOf (Function.update st.norm k c) k := fun c => by
    rw [cumul, cumul_update k le_rfl]
  have hsum := h.sum_eq
  have hlargest := h.largest
  have hsmall : count k ≤ total >>> tableLog → (∀ s < k, count s ≤ total >>> tableLog) →
      ∀ s < k + 1, count s ≤ total >>> tableLog := fun hc hall s hs => by
    rcases Nat.lt_succ_iff_lt_or_eq.mp hs with hlt | rfl
    · exact hall s hlt
    · exact hc
  unfold Normalizer.step at hrun
  split at hrun
  · cases hrun
  · split at hrun
    · rename_i hc0
      obtain rfl := Except.ok.inj hrun
      refine ⟨hge 0 (by omega), hzero 0 (by omega), ?_, ?_⟩
      · rw [hcumul, cellsOf, Function.update_self]
        simpa using hsum
      · rcases hlargest with ⟨hk, hp, hpos⟩ | ⟨hz, hall⟩
        · exact .inl ⟨Nat.lt_succ_of_lt hk, (hold 0 _ hk).trans hp, hpos⟩
        · exact .inr ⟨hz, hsmall (hc0.trans_le (Nat.zero_le _)) hall⟩
    · rename_i hc0
      split at hrun
      · rename_i hle
        obtain rfl := Except.ok.inj hrun
        refine ⟨hge low (by omega), hzero low (by omega), ?_, ?_⟩
        · have hcell : cellsOf (Function.update st.norm k low) k = 1 := by
            rw [cellsOf, Function.update_self]
            rcases hlow with rfl | rfl <;> rfl
          rw [hcumul, hcell]
          dsimp only
          push_cast
          omega
        · rcases hlargest with ⟨hk, hp, hpos⟩ | ⟨hz, hall⟩
          · exact .inl ⟨Nat.lt_succ_of_lt hk, (hold low _ hk).trans hp, hpos⟩
          · exact .inr ⟨hz, hsmall hle hall⟩
      · rename_i hbig
        obtain rfl := Except.ok.inj hrun
        have hpos : 0 < probaOf tableLog total (count k) := probaOf_pos (Nat.pos_of_ne_zero hc0) h0 h62
        refine ⟨hge _ (by omega), hzero _ (by omega), ?_, ?_⟩
        · rw [hcumul, cellsOf_of_pos (by omega)]
          dsimp only
          push_cast
          omega
        · left
          dsimp only
          rcases lt_or_ge st.largestP (probaOf tableLog total (count k)) with hlt | hle
          · rw [if_pos hlt, if_pos hlt]
            exact ⟨by omega, Function.update_self _ _ _, hpos⟩
          · rw [if_neg (not_lt.mpr hle), if_neg (not_lt.mpr hle)]
            rcases hlargest with ⟨hk, hp, hp0⟩ | ⟨hz, -⟩
            · exact ⟨by omega, (hold _ _ hk).trans hp, hp0⟩
            · omega

/-! ## The second method -/

/-- The counts of the symbols that have no cells yet. -/
def unassigned (count : ℕ → ℕ) (norm : ℕ → ℤ) (n : ℕ) : ℕ :=
  ∑ s ∈ Finset.range n, if norm s = notYetAssigned then count s else 0

theorem unassigned_update {c : ℤ} : ∀ {m : ℕ}, m ≤ k →
    unassigned count (Function.update norm k c) m = unassigned count norm m := fun {m} hm =>
  Finset.sum_congr rfl fun s hs => by
    rw [Function.update_of_ne (by have := Finset.mem_range.mp hs; omega)]

theorem unassigned_succ (count : ℕ → ℕ) (norm : ℕ → ℤ) (n : ℕ) :
    unassigned count norm (n + 1) =
      unassigned count norm n + if norm n = notYetAssigned then count n else 0 :=
  Finset.sum_range_succ _ _

/-- A symbol that gets its cells. -/
theorem unassigned_give (count : ℕ → ℕ) {c : ℤ} (hk : k < s) (hn : norm k = notYetAssigned)
    (hc : c ≠ notYetAssigned) :
    unassigned count (Function.update norm k c) s + count k = unassigned count norm s := by
  induction s with
  | zero => omega
  | succ s ih =>
    rw [unassigned_succ, unassigned_succ]
    rcases Nat.lt_succ_iff_lt_or_eq.mp hk with hlt | rfl
    · rw [← ih hlt, Function.update_of_ne (by omega)]
      omega
    · rw [unassigned_update le_rfl, Function.update_self, if_neg hc, if_pos hn, Nat.add_zero]

/-- What the symbols so far have: one cell, or none yet. -/
structure Few (count : ℕ → ℕ) (total tableLog k : ℕ) (norm : ℕ → ℤ) : Prop where
  cases : ∀ s < k, norm s = notYetAssigned ∨ norm s = -1 ∨ norm s = 0 ∨ norm s = 1
  zero_iff : ∀ s < k, norm s = 0 ↔ count s = 0
  low : ∀ s < k, norm s = -1 → count s ≤ total >>> tableLog

theorem Few.cells_le (h : Few count total tableLog k norm) : ∀ s < k, cellsOf norm s ≤ 1 := fun s hs => by
  rw [cellsOf]
  rcases h.cases s hs with h | h | h | h <;> rw [h] <;> decide

theorem Few.update {c : ℤ} {m n : ℕ} (h : Few count total tableLog m norm)
    (hk : ∀ s < n, s ≠ k → s < m) (hc : c = notYetAssigned ∨ c = -1 ∨ c = 0 ∨ c = 1)
    (h0 : c = 0 ↔ count k = 0) (hlow : c = -1 → count k ≤ total >>> tableLog) :
    Few count total tableLog n (Function.update norm k c) where
  cases s hs := by
    rcases eq_or_ne s k with rfl | hne
    · rwa [Function.update_self]
    · rw [Function.update_of_ne hne]
      exact h.cases s (hk s hs hne)
  zero_iff s hs := by
    rcases eq_or_ne s k with rfl | hne
    · rwa [Function.update_self]
    · rw [Function.update_of_ne hne]
      exact h.zero_iff s (hk s hs hne)
  low s hs := by
    rcases eq_or_ne s k with rfl | hne
    · rwa [Function.update_self]
    · rw [Function.update_of_ne hne]
      exact h.low s (hk s hs hne)

/-- A cell stands for an occurrence. -/
theorem Few.cumul_add_le {n : ℕ} (h : Few count total tableLog n norm) (hk : k ≤ n) :
    cumul norm k + unassigned count norm k ≤ ∑ s ∈ Finset.range k, count s := by
  induction k with
  | zero => exact le_rfl
  | succ k ih =>
    have hsum := ih (by omega)
    have hcell := h.cells_le k (by omega)
    have hzero : count k = 0 → cellsOf norm k = 0 := fun h0 => by
      rw [cellsOf, (h.zero_iff k (by omega)).mpr h0]
      rfl
    have hnone : norm k = notYetAssigned → cellsOf norm k = 0 := fun hn => by
      rw [cellsOf, hn]
      rfl
    rw [cumul, unassigned_succ, Finset.sum_range_succ]
    split_ifs with hn
    · have := hnone hn
      omega
    · omega

/-- Single cells do not fill the table. -/
theorem Few.cumul_lt (h : Few count total tableLog (maxSymbolValue + 1) norm)
    (hsum : ∑ s ∈ Finset.range (maxSymbolValue + 1), count s = total)
    (hmin : minTableLog total maxSymbolValue ≤ tableLog) :
    cumul norm (maxSymbolValue + 1) < 2 ^ tableLog := by
  have := h.cumul_add_le le_rfl
  have := cumul_le h.cells_le
  rcases minTableLog_le hmin with hlt | hlt <;> omega

/-- After `k` symbols of the first pass: `total` is what the others and the unassigned count. -/
structure NormalizerM2.Inv (count : ℕ → ℕ) (total tableLog k : ℕ) (st : NormalizerM2) : Prop where
  few : Few count total tableLog k st.norm
  dist : st.distributed = cumul st.norm k
  total_eq : st.total + ∑ s ∈ Finset.range k, count s = unassigned count st.norm k + total

theorem NormalizerM2.Inv.init {st : NormalizerM2} {lowOne : ℕ} {low : ℤ}
    (h : NormalizerM2.Inv count total tableLog k st)
    (hsum : ∑ s ∈ Finset.range (k + 1), count s ≤ total) (hlow : low = -1 ∨ low = 1) :
    NormalizerM2.Inv count total tableLog (k + 1)
      (NormalizerM2.init count (total >>> tableLog) lowOne low st k) := by
  obtain ⟨hfew, hdist, htotal⟩ := h
  rw [Finset.sum_range_succ] at hsum
  have hlt : ∀ s < k + 1, s ≠ k → s < k := fun s hs hne => by omega
  have hcumul : ∀ c : ℤ, cumul (Function.update st.norm k c) (k + 1) =
      cumul st.norm k + cellsOf (Function.update st.norm k c) k := fun c => by
    rw [cumul, cumul_update k le_rfl]
  have hun : ∀ c : ℤ, unassigned count (Function.update st.norm k c) (k + 1) =
      unassigned count st.norm k + if c = notYetAssigned then count k else 0 := fun c => by
    rw [unassigned_succ, unassigned_update le_rfl, Function.update_self]
  -- a symbol that gets its cell
  have hassign : ∀ c : ℤ, (c = -1 ∧ count k ≤ total >>> tableLog) ∨ c = 1 → count k ≠ 0 →
      NormalizerM2.Inv count total tableLog (k + 1) (st.assign count k c) := fun c hc h0 => by
    have hcell : cellsOf (Function.update st.norm k c) k = 1 := by
      rw [cellsOf, Function.update_self]
      rcases hc with ⟨rfl, -⟩ | rfl <;> rfl
    refine ⟨hfew.update hlt (by omega) (by omega) (by omega), ?_, ?_⟩
    · rw [NormalizerM2.assign, hcumul, hcell, hdist]
    · have hne : c ≠ notYetAssigned := by rw [notYetAssigned]; omega
      rw [NormalizerM2.assign, hun, if_neg hne, Finset.sum_range_succ]
      dsimp only
      omega
  unfold NormalizerM2.init
  split
  · rename_i h0
    refine ⟨hfew.update hlt (by omega) (by omega) (by omega), ?_, ?_⟩
    · rw [hcumul, cellsOf, Function.update_self, hdist]
      rfl
    · rw [hun, if_neg (by decide), Finset.sum_range_succ]
      dsimp only
      omega
  · rename_i h0
    split
    · rename_i hle
      exact hassign low (by omega) h0
    · split
      · exact hassign 1 (.inr rfl) h0
      · refine ⟨hfew.update hlt (.inl rfl) ?_ ?_, ?_, ?_⟩
        · simp [notYetAssigned, h0]
        · exact fun h => absurd h (by decide)
        · rw [hcumul, cellsOf, Function.update_self, hdist]
          rfl
        · rw [hun, if_pos rfl, Finset.sum_range_succ]
          dsimp only
          omega

theorem NormalizerM2.Inv.more {st : NormalizerM2} {n lowOne : ℕ}
    (h : NormalizerM2.Inv count total tableLog n st)
    (hsum : ∑ s ∈ Finset.range n, count s ≤ total) (hk : k < n) :
    NormalizerM2.Inv count total tableLog n (NormalizerM2.more count lowOne st k) := by
  unfold NormalizerM2.more
  split
  · rename_i hcase
    obtain ⟨hfew, hdist, htotal⟩ := h
    have h0 : count k ≠ 0 := fun h0 => by
      have := (hfew.zero_iff k hk).mpr h0
      rw [hcase.1] at this
      exact absurd this (by decide)
    have hnone : cellsOf st.norm k = 0 := by
      rw [cellsOf, hcase.1]
      rfl
    have hun := unassigned_give count (c := 1) hk hcase.1 (by decide)
    refine ⟨hfew.update (fun s hs _ => hs) (by omega) (by omega) (fun h => absurd h (by decide)), ?_, ?_⟩
    all_goals rw [NormalizerM2.assign]; dsimp only
    · rw [cumul_give hk hnone (by decide), hdist]
      rfl
    · omega
  · exact h

/-- The symbol with the highest count. -/
theorem maxCount_spec (count : ℕ → ℕ) (maxSymbolValue : ℕ) :
    (maxCount count maxSymbolValue).1 ≤ maxSymbolValue ∧
      ∀ s ≤ maxSymbolValue, count s ≤ count (maxCount count maxSymbolValue).1 := by
  have hrun := foldl_range (I := fun k (m : ℕ × ℕ) =>
      m.1 ≤ maxSymbolValue ∧ m.2 ≤ count m.1 ∧ ∀ s < k, count s ≤ m.2)
    (f := fun m s => if m.2 < count s then (s, count s) else m) (n := maxSymbolValue + 1) (b := (0, 0))
    ⟨Nat.zero_le _, Nat.zero_le _, fun s hs => absurd hs (Nat.not_lt_zero s)⟩
    fun k hk m ⟨h1, h2, h3⟩ => by
      split
      · rename_i hlt
        refine ⟨by dsimp only; omega, le_rfl, fun s hs => ?_⟩
        rcases Nat.lt_succ_iff_lt_or_eq.mp hs with hs | rfl
        · exact (h3 s hs).trans hlt.le
        · exact le_rfl
      · refine ⟨h1, h2, fun s hs => ?_⟩
        rcases Nat.lt_succ_iff_lt_or_eq.mp hs with hs | rfl
        · exact h3 s hs
        · omega
  exact ⟨hrun.1, fun s hs => (hrun.2.2 s (by omega)).trans hrun.2.1⟩

theorem roundRobin_zero (fuel : ℕ) : roundRobin maxSymbolValue fuel s 0 norm = norm := by
  cases fuel <;> rfl

/-- **Everything left is handed out**, one cell a symbol that has some, as long as there is one. -/
theorem roundRobin_spec {fuel left : ℕ} (hs : s ≤ maxSymbolValue)
    (hnext : ∃ j ≤ maxSymbolValue, 0 < norm ((s + j) % (maxSymbolValue + 1)) ∧
      (left - 1) * (maxSymbolValue + 1) + j + 1 ≤ fuel) :
    cumul (roundRobin maxSymbolValue fuel s left norm) (maxSymbolValue + 1) =
        cumul norm (maxSymbolValue + 1) + left ∧
      ∀ t, (norm t ≤ 0 → roundRobin maxSymbolValue fuel s left norm t = norm t) ∧
        (0 < norm t → 0 < roundRobin maxSymbolValue fuel s left norm t) := by
  induction fuel generalizing s left norm with
  | zero =>
    obtain ⟨j, -, -, hfuel⟩ := hnext
    omega
  | succ fuel ih =>
    obtain ⟨j, hj, hpos, hfuel⟩ := hnext
    have hmod : (s + 1) % (maxSymbolValue + 1) ≤ maxSymbolValue :=
      Nat.le_of_lt_succ (Nat.mod_lt _ (Nat.succ_pos _))
    rw [roundRobin]
    split
    · rename_i hleft
      split
      · rename_i hps
        have hgive := cumul_update_lt norm (c := norm s + 1)
          (show s < maxSymbolValue + 1 by omega)
        rw [cellsOf_of_pos (by omega), cellsOf, if_neg (by omega)] at hgive
        have hupd : ∀ t, (norm t ≤ 0 → Function.update norm s (norm s + 1) t = norm t) ∧
            (0 < norm t → 0 < Function.update norm s (norm s + 1) t) := fun t => by
          rcases eq_or_ne t s with rfl | hne
          · rw [Function.update_self]
            omega
          · rw [Function.update_of_ne hne]
            exact ⟨fun _ => rfl, id⟩
        rcases Nat.eq_or_lt_of_le hleft with h1 | h1
        · rw [show left - 1 = 0 by omega, roundRobin_zero]
          exact ⟨by omega, hupd⟩
        · -- a whole round later it is this symbol's turn again
          have hagain : 0 < Function.update norm s (norm s + 1)
              (((s + 1) % (maxSymbolValue + 1) + maxSymbolValue) % (maxSymbolValue + 1)) := by
            rw [Nat.mod_add_mod, show s + 1 + maxSymbolValue = s + (maxSymbolValue + 1) by omega,
              Nat.add_mod_right, Nat.mod_eq_of_lt (by omega), Function.update_self]
            omega
          have hround : (left - 1 - 1) * (maxSymbolValue + 1) + maxSymbolValue + 1 ≤ fuel := by
            have : (left - 1) * (maxSymbolValue + 1) =
                (left - 1 - 1) * (maxSymbolValue + 1) + (maxSymbolValue + 1) := by
              rw [← Nat.succ_mul, show (left - 1 - 1).succ = left - 1 by omega]
            omega
          obtain ⟨hsum, hkeep⟩ := ih hmod ⟨maxSymbolValue, le_rfl, hagain, hround⟩
          refine ⟨by omega, fun t => ⟨fun h => ?_, fun h => ?_⟩⟩
          · rw [(hkeep t).1 (((hupd t).1 h).le.trans h), (hupd t).1 h]
          · exact (hkeep t).2 ((hupd t).2 h)
      · rename_i hns
        have hj0 : j ≠ 0 := by
          rintro rfl
          rw [Nat.add_zero, Nat.mod_eq_of_lt (by omega)] at hpos
          exact hns hpos
        refine ih hmod ⟨j - 1, by omega, ?_, by omega⟩
        rwa [Nat.mod_add_mod, show s + 1 + (j - 1) = s + j by omega]
    · rename_i hleft
      rw [show left = 0 by omega]
      exact ⟨rfl, fun t => ⟨fun _ => rfl, id⟩⟩

/-- The scaling so far: the cells are the whole part of what was added up. -/
structure Scaled (count : ℕ → ℕ) (maxSymbolValue vStepLog rStep distributed mid : ℕ) (norm : ℕ → ℤ)
    (k : ℕ) (r : ℕ × (ℕ → ℤ)) : Prop where
  fin_eq : r.1 = mid + rStep * unassigned count norm k
  rest : ∀ s, k ≤ s → r.2 s = norm s
  ge : ∀ s < k, -1 ≤ r.2 s
  zero_iff : ∀ s < k, r.2 s = 0 ↔ count s = 0
  sum_eq : cumul r.2 (maxSymbolValue + 1) = distributed + r.1 >>> vStepLog

theorem Scaled.step {vStepLog rStep distributed mid : ℕ} {r r' : ℕ × (ℕ → ℤ)}
    (h : Scaled count maxSymbolValue vStepLog rStep distributed mid norm k r) (hk : k ≤ maxSymbolValue)
    (hfew : Few count total tableLog (maxSymbolValue + 1) norm)
    (hrun : scaleStep count vStepLog rStep r k = .ok r') :
    Scaled count maxSymbolValue vStepLog rStep distributed mid norm (k + 1) r' := by
  obtain ⟨fin, cells⟩ := r
  obtain ⟨hfin, hrest, hge, hzero, hsum⟩ := h
  dsimp only at hfin hrest hge hzero hsum
  have hkn : cells k = norm k := hrest k le_rfl
  have hcase := hfew.cases k (by omega)
  have hk0 := hfew.zero_iff k (by omega)
  unfold scaleStep at hrun
  dsimp only at hrun
  split at hrun
  · rename_i hnot
    rw [hkn] at hnot
    split at hrun
    · cases hrun
    · rename_i hw
      obtain rfl := Except.ok.inj hrun
      have hle : fin >>> vStepLog ≤ (fin + count k * rStep) >>> vStepLog := by
        rw [Nat.shiftRight_eq_div_pow, Nat.shiftRight_eq_div_pow]
        exact Nat.div_le_div_right (Nat.le_add_right _ _)
      generalize hweight : (fin + count k * rStep) >>> vStepLog - fin >>> vStepLog = weight at *
      have hold : ∀ s < k, Function.update cells k (weight : ℤ) s = cells s := fun s hs =>
        Function.update_of_ne (by omega) _ _
      have hnone : cellsOf cells k = 0 := by
        rw [cellsOf, hkn, hnot]
        rfl
      refine ⟨?_, fun s hs => ?_, fun s hs => ?_, fun s hs => ?_, ?_⟩ <;> dsimp only
      · rw [unassigned_succ, if_pos hnot, hfin]
        ring
      · rw [Function.update_of_ne (by omega)]
        exact hrest s (by omega)
      · rcases Nat.lt_succ_iff_lt_or_eq.mp hs with hlt | rfl
        · rw [hold s hlt]
          exact hge s hlt
        · rw [Function.update_self]
          omega
      · rcases Nat.lt_succ_iff_lt_or_eq.mp hs with hlt | rfl
        · rw [hold s hlt]
          exact hzero s hlt
        · rw [Function.update_self, ← hk0, hnot, notYetAssigned]
          omega
      · rw [cumul_give (by omega) hnone (by omega), hsum]
        omega
  · rename_i hnot
    rw [hkn] at hnot
    obtain rfl := Except.ok.inj hrun
    refine ⟨?_, fun s hs => hrest s (by omega), fun s hs => ?_, fun s hs => ?_, hsum⟩ <;> dsimp only
    · rw [unassigned_succ, if_neg hnot, Nat.add_zero, hfin]
    · rcases Nat.lt_succ_iff_lt_or_eq.mp hs with hlt | rfl
      · exact hge s hlt
      · rw [hkn]
        omega
    · rcases Nat.lt_succ_iff_lt_or_eq.mp hs with hlt | rfl
      · exact hzero s hlt
      · rw [hkn]
        exact hk0

/-- **The scale comes out even**: adding up every count gives what is left, in whole cells. -/
theorem scale_total (vStepLog left : ℕ) {rest : ℕ} (hv : 33 ≤ vStepLog) (h0 : 0 < rest)
    (hrest : rest < 2 ^ 32) :
    (1 <<< (vStepLog - 1) - 1 +
      ((1 <<< vStepLog) * left + (1 <<< (vStepLog - 1) - 1)) / rest * rest) >>> vStepLog = left := by
  have hpow : 2 ^ vStepLog = 2 * 2 ^ (vStepLog - 1) := by
    rw [← Nat.pow_succ', show (vStepLog - 1).succ = vStepLog by omega]
  have hbig : 2 ^ 32 ≤ 2 ^ (vStepLog - 1) := Nat.pow_le_pow_right (by omega) (by omega)
  rw [Nat.shiftRight_eq_div_pow, Nat.one_shiftLeft, Nat.one_shiftLeft]
  have hmod := Nat.div_add_mod (2 ^ vStepLog * left + (2 ^ (vStepLog - 1) - 1)) rest
  have hlt := Nat.mod_lt (2 ^ vStepLog * left + (2 ^ (vStepLog - 1) - 1)) h0
  rw [Nat.mul_comm] at hmod
  have hcomm : left * 2 ^ vStepLog = 2 ^ vStepLog * left := Nat.mul_comm _ _
  have hsucc : (left + 1) * 2 ^ vStepLog = 2 ^ vStepLog * left + 2 ^ vStepLog := by
    rw [Nat.succ_mul, hcomm]
  generalize (2 ^ vStepLog * left + (2 ^ (vStepLog - 1) - 1)) / rest * rest = x at *
  apply Nat.div_eq_of_lt_le
  · omega
  · omega

/-- After the first pass, or both. -/
theorem NormalizerM2.Inv.whole {st : NormalizerM2}
    (h : NormalizerM2.Inv count total tableLog (maxSymbolValue + 1) st)
    (hsum : ∑ s ∈ Finset.range (maxSymbolValue + 1), count s = total) :
    st.total = unassigned count st.norm (maxSymbolValue + 1) := by
  have := h.total_eq
  omega

theorem toDistribute_eq {distributed : ℕ} (hlog : tableLog ≤ 12) (hlt : distributed < 2 ^ tableLog) :
    distributed + toDistribute tableLog distributed = 2 ^ tableLog ∧
      toDistribute tableLog distributed ≠ 0 := by
  have hle : 2 ^ tableLog ≤ 2 ^ 12 := Nat.pow_le_pow_right (by omega) hlog
  rw [toDistribute, Nat.one_shiftLeft]
  omega

/-- All symbols have a single cell: the largest takes the rest. -/
theorem Few.give_max (h : Few count total tableLog (maxSymbolValue + 1) norm)
    (hbig : ∃ s ≤ maxSymbolValue, total >>> tableLog < count s) {left : ℕ}
    (hfull : cumul norm (maxSymbolValue + 1) = maxSymbolValue + 1)
    (hleft : maxSymbolValue + 1 + left = 2 ^ tableLog) :
    Normalized count maxSymbolValue tableLog
      (Function.update norm (maxCount count maxSymbolValue).1
        (norm (maxCount count maxSymbolValue).1 + left)) := by
  obtain ⟨hmax, hall⟩ := maxCount_spec count maxSymbolValue
  set m := (maxCount count maxSymbolValue).1
  have hone : norm m = 1 := by
    have hcell := cells_of_cumul_eq h.cells_le hfull (show m < maxSymbolValue + 1 by omega)
    have hlow := h.low m (by omega)
    obtain ⟨b, hb, hbc⟩ := hbig
    have hm := hall b hb
    rw [cellsOf] at hcell
    rcases h.cases m (by omega) with hn | hn | hn | hn
    · rw [hn] at hcell
      exact absurd hcell (by decide)
    · have := hlow hn
      omega
    · rw [hn] at hcell
      exact absurd hcell (by decide)
    · exact hn
  have hcells : ∀ s ≤ maxSymbolValue, norm s = -1 ∨ norm s = 1 := fun s hs => by
    have hcell := cells_of_cumul_eq h.cells_le hfull (show s < maxSymbolValue + 1 by omega)
    rw [cellsOf] at hcell
    rcases h.cases s (by omega) with hn | hn | hn | hn
    · rw [hn] at hcell
      exact absurd hcell (by decide)
    · exact .inl hn
    · rw [hn] at hcell
      exact absurd hcell (by decide)
    · exact .inr hn
  rw [hone]
  refine ⟨fun s hs => ?_, fun s hs => ?_, ?_⟩
  · rcases eq_or_ne s m with rfl | hne
    · rw [Function.update_self]
      omega
    · rw [Function.update_of_ne hne]
      have := hcells s hs
      omega
  · have hz := h.zero_iff s (by omega)
    have hc := hcells s hs
    rcases eq_or_ne s m with rfl | hne
    · rw [Function.update_self]
      omega
    · rw [Function.update_of_ne hne]
      omega
  · have hgive := cumul_update_lt norm (c := (1 : ℤ) + left)
      (show m < maxSymbolValue + 1 by omega)
    rw [cellsOf_of_pos (by omega), cellsOf, hone] at hgive
    have : ((1 : ℤ) + left).toNat = 1 + left := by omega
    rw [hfull, this] at hgive
    have h1 : (if (1 : ℤ) = -1 then 1 else (1 : ℤ).toNat) = 1 := rfl
    rw [h1] at hgive
    omega

/-- No symbol is without a cell: the rest goes round. -/
theorem Few.give_round (h : Few count total tableLog (maxSymbolValue + 1) norm)
    (hbig : ∃ s ≤ maxSymbolValue, total >>> tableLog < count s) {left : ℕ} (hleft : left ≠ 0)
    (hsum : cumul norm (maxSymbolValue + 1) + left = 2 ^ tableLog)
    (hnone : unassigned count norm (maxSymbolValue + 1) = 0) :
    Normalized count maxSymbolValue tableLog
      (roundRobin maxSymbolValue (left * (maxSymbolValue + 1)) 0 left norm) := by
  have hassigned : ∀ s ≤ maxSymbolValue, norm s ≠ notYetAssigned := fun s hs hn => by
    have h0 := Finset.sum_eq_zero_iff.mp hnone s (Finset.mem_range.mpr (by omega))
    rw [if_pos hn] at h0
    have := (h.zero_iff s (by omega)).mpr h0
    rw [hn] at this
    exact absurd this (by decide)
  obtain ⟨b, hb, hbc⟩ := hbig
  have hbpos : 0 < norm b := by
    have hlow := h.low b (by omega)
    have hz := h.zero_iff b (by omega)
    rcases h.cases b (by omega) with hn | hn | hn | hn
    · exact absurd hn (hassigned b hb)
    · exact absurd (hlow hn) (not_le.mpr hbc)
    · rw [hz.mp hn] at hbc
      exact absurd hbc (Nat.not_lt_zero _)
    · omega
  have hfuel : (left - 1) * (maxSymbolValue + 1) + b + 1 ≤ left * (maxSymbolValue + 1) := by
    calc _ ≤ (left - 1) * (maxSymbolValue + 1) + (maxSymbolValue + 1) := by omega
      _ = (left - 1 + 1) * (maxSymbolValue + 1) := (Nat.succ_mul _ _).symm
      _ = left * (maxSymbolValue + 1) := by rw [Nat.sub_add_cancel (Nat.pos_of_ne_zero hleft)]
  obtain ⟨hcumul, hkeep⟩ := roundRobin_spec (Nat.zero_le maxSymbolValue)
    ⟨b, hb, by rwa [Nat.zero_add, Nat.mod_eq_of_lt (by omega)], hfuel⟩
  refine ⟨fun s hs => ?_, fun s hs => ?_, hcumul.trans hsum⟩
  all_goals
    have hk := hkeep s
    have hc := h.cases s (by omega)
    have hz := h.zero_iff s (by omega)
    have hn := hassigned s hs
    rw [notYetAssigned] at hc hn
    generalize roundRobin maxSymbolValue (left * (maxSymbolValue + 1)) 0 left norm s = r at *
    omega

/-- A count that is worth a cell gets one. -/
theorem scale_weight (vStepLog left : ℕ) {rest c x : ℕ} (hv : 33 ≤ vStepLog) (h0 : 0 < rest)
    (hrest : rest < 2 ^ 32) (hc : rest < c * left) :
    1 ≤ (x + c * (((1 <<< vStepLog) * left + (1 <<< (vStepLog - 1) - 1)) / rest)) >>> vStepLog -
      x >>> vStepLog := by
  have hbig : 2 ^ 32 ≤ 2 ^ (vStepLog - 1) := Nat.pow_le_pow_right (by omega) (by omega)
  have hpos := Nat.two_pow_pos vStepLog
  rw [Nat.shiftRight_eq_div_pow, Nat.shiftRight_eq_div_pow, Nat.one_shiftLeft, Nat.one_shiftLeft]
  have hmod := Nat.div_add_mod (2 ^ vStepLog * left + (2 ^ (vStepLog - 1) - 1)) rest
  have hlt := Nat.mod_lt (2 ^ vStepLog * left + (2 ^ (vStepLog - 1) - 1)) h0
  set rStep := (2 ^ vStepLog * left + (2 ^ (vStepLog - 1) - 1)) / rest
  have hstep : 2 ^ vStepLog * left ≤ rest * rStep := by omega
  have hcell : 2 ^ vStepLog ≤ c * rStep := by
    refine Nat.le_of_mul_le_mul_left ?_ h0
    calc rest * 2 ^ vStepLog ≤ c * left * 2 ^ vStepLog := Nat.mul_le_mul_right _ hc.le
      _ = c * (2 ^ vStepLog * left) := by ring
      _ ≤ c * (rest * rStep) := Nat.mul_le_mul_left _ hstep
      _ = rest * (c * rStep) := by ring
  have hle : (x + 2 ^ vStepLog) / 2 ^ vStepLog ≤ (x + c * rStep) / 2 ^ vStepLog :=
    Nat.div_le_div_right (by omega)
  rw [Nat.add_div_right x hpos] at hle
  omega

/-- The rest goes by scale. -/
theorem Few.give_scaled (h : Few count total tableLog (maxSymbolValue + 1) norm)
    (hlog : tableLog ≤ 12) {left rest : ℕ} (hrest : rest = unassigned count norm (maxSymbolValue + 1))
    (h0 : rest ≠ 0) (h32 : rest < 2 ^ 32)
    (hsum : cumul norm (maxSymbolValue + 1) + left = 2 ^ tableLog)
    (hworth : ∀ s ≤ maxSymbolValue, norm s = notYetAssigned → rest < count s * left) :
    ∃ r, (List.range (maxSymbolValue + 1)).foldlM
        (scaleStep count (62 - tableLog)
          (((1 <<< (62 - tableLog)) * left + (1 <<< (62 - tableLog - 1) - 1)) / rest))
        (1 <<< (62 - tableLog - 1) - 1, norm) = .ok r ∧
      Normalized count maxSymbolValue tableLog r.2 := by
  have hmid : (1 <<< (62 - tableLog - 1) - 1) >>> (62 - tableLog) = 0 := by
    rw [Nat.one_shiftLeft, Nat.shiftRight_eq_div_pow]
    have : 2 ^ (62 - tableLog - 1) ≤ 2 ^ (62 - tableLog) := Nat.pow_le_pow_right (by omega) (by omega)
    have := Nat.two_pow_pos (62 - tableLog - 1)
    exact Nat.div_eq_of_lt (by omega)
  have hpos := Nat.pos_of_ne_zero h0
  have htotal := scale_total (62 - tableLog) left (by omega) hpos h32
  have hweight := fun c x => scale_weight (62 - tableLog) left (c := c) (x := x)
    (by omega) hpos h32
  set mid := 1 <<< (62 - tableLog - 1) - 1
  set rStep := ((1 <<< (62 - tableLog)) * left + mid) / rest
  have hloop := foldlM_range (n := maxSymbolValue + 1)
    (I := Scaled count maxSymbolValue (62 - tableLog) rStep (cumul norm (maxSymbolValue + 1)) mid norm)
    (f := scaleStep count (62 - tableLog) rStep) (b := (mid, norm))
    ⟨by simp [unassigned], fun _ _ => rfl, fun s hs => absurd hs (Nat.not_lt_zero s),
      fun s hs => absurd hs (Nat.not_lt_zero s), by dsimp only; rw [hmid]; rfl⟩
    fun k hk b b' hI hb => hI.step (by omega) h hb
  rcases hloop with ⟨r, hr, hI⟩ | ⟨e, k, r, hk, hI, herr, -⟩
  · refine ⟨r, hr, fun s hs => hI.ge s (by omega), fun s hs => hI.zero_iff s (by omega), ?_⟩
    rw [hI.sum_eq, hI.fin_eq, ← hrest, htotal, hsum]
  · -- no weight is 0
    exfalso
    unfold scaleStep at herr
    split at herr
    · rename_i hnot
      dsimp only at herr
      rw [hI.rest k le_rfl] at hnot
      have := hweight (count k) r.1 (hworth k (by omega) hnot)
      rw [if_neg (by omega)] at herr
      cases herr
    · cases herr

/-- The symbols without a cell count more than `lowOne`. -/
def Above (count : ℕ → ℕ) (lowOne k : ℕ) (norm : ℕ → ℤ) : Prop :=
  ∀ s < k, norm s = notYetAssigned → lowOne < count s

theorem Above.init {st : NormalizerM2} {lowThreshold lowOne : ℕ} {low : ℤ}
    (h : Above count lowOne k st.norm) (hlow : low = -1 ∨ low = 1) :
    Above count lowOne (k + 1) (NormalizerM2.init count lowThreshold lowOne low st k).norm := by
  have hold : ∀ c : ℤ, (c = notYetAssigned → lowOne < count k) →
      Above count lowOne (k + 1) (Function.update st.norm k c) := fun c hc s hs hn => by
    rcases eq_or_ne s k with rfl | hne
    · rw [Function.update_self] at hn
      exact hc hn
    · rw [Function.update_of_ne hne] at hn
      exact h s (by omega) hn
  unfold NormalizerM2.init
  split_ifs with h0 hle hone
  · exact hold 0 fun hc => absurd hc (by decide)
  · exact hold low fun hc => absurd hc (by rw [notYetAssigned]; omega)
  · exact hold 1 fun hc => absurd hc (by decide)
  · exact hold _ fun _ => by omega

/-- The second pass takes from what is left, and nothing back. -/
structure NormalizerM2.After (count : ℕ → ℕ) (lowOne : ℕ) (st₁ : NormalizerM2) (k : ℕ)
    (st : NormalizerM2) : Prop where
  above : Above count lowOne k st.norm
  total_le : st.total ≤ st₁.total
  distributed_le : st₁.distributed ≤ st.distributed

theorem NormalizerM2.After.more {st₁ st : NormalizerM2} {lowOne : ℕ}
    (h : NormalizerM2.After count lowOne st₁ k st) :
    NormalizerM2.After count lowOne st₁ (k + 1) (NormalizerM2.more count lowOne st k) := by
  unfold NormalizerM2.more
  split_ifs with hcase
  · refine ⟨fun s hs hn => ?_, (Nat.sub_le _ _).trans h.total_le, Nat.le_succ_of_le h.distributed_le⟩
    unfold NormalizerM2.assign at hn
    dsimp only at hn
    rcases eq_or_ne s k with rfl | hne
    · rw [Function.update_self] at hn
      exact absurd hn (by decide)
    · rw [Function.update_of_ne hne] at hn
      exact h.above s (by omega) hn
  · refine ⟨fun s hs hn => ?_, h.total_le, h.distributed_le⟩
    rcases eq_or_ne s k with rfl | hne
    · by_contra hle
      exact hcase ⟨hn, not_lt.mp hle⟩
    · exact h.above s (by omega) hn

/-- **One second pass is enough**: what it leaves is worth a cell each.  A pass is made where more than a
third of the cells are gone, and never takes half of them. -/
theorem worth_second {W rest rest' d d' c : ℕ} (hle : rest ≤ total)
    (hpass : total * 3 / (2 * W) < rest / (W - d)) (hd : d ≤ d') (hd' : 2 * d' < W) (hr : rest' ≤ rest)
    (hc : rest * 3 / ((W - d) * 2) < c) : rest' < c * (W - d') := by
  have hthird : W < 3 * d := by
    have h1 := (Nat.div_lt_iff_lt_mul (by omega)).mp hpass
    have h2 := Nat.div_mul_le_self rest (W - d)
    have h3 : 3 * (W - d) * total < 2 * W * total := by
      calc 3 * (W - d) * total = total * 3 * (W - d) := by ring
        _ < rest / (W - d) * (2 * W) * (W - d) := Nat.mul_lt_mul_of_pos_right h1 (by omega)
        _ = rest / (W - d) * (W - d) * (2 * W) := by ring
        _ ≤ total * (2 * W) := Nat.mul_le_mul_right _ (h2.trans hle)
        _ = 2 * W * total := Nat.mul_comm _ _
    have := Nat.lt_of_mul_lt_mul_right h3
    omega
  have hcount := (Nat.div_lt_iff_lt_mul (by omega)).mp hc
  have hcells : c * (2 * (W - d)) ≤ c * (3 * (W - d')) := Nat.mul_le_mul_left _ (by omega)
  have e1 : c * ((W - d) * 2) = c * (2 * (W - d)) := by ring
  have e2 : c * (3 * (W - d')) = 3 * (c * (W - d')) := by ring
  omega

/-- **The second method** gives every symbol its cells. -/
theorem normalizeM2_spec (norm : ℕ → ℤ) {low : ℤ}
    (hsum : ∑ s ∈ Finset.range (maxSymbolValue + 1), count s = total) (h0 : 0 < total)
    (h32 : total < 2 ^ 32) (h5 : 5 ≤ tableLog) (hlog : tableLog ≤ 12)
    (hmin : minTableLog total maxSymbolValue ≤ tableLog) (hlow : low = -1 ∨ low = 1) :
    ∃ nc, normalizeM2 norm tableLog count total maxSymbolValue low = .ok nc ∧
      Normalized count maxSymbolValue tableLog nc := by
  have hbig := exists_big hsum h0 hmin
  have hle : ∀ k ≤ maxSymbolValue + 1, ∑ s ∈ Finset.range k, count s ≤ total := fun k hk => by
    rw [← hsum]
    exact Finset.sum_le_sum_of_subset (Finset.range_subset_range.mpr hk)
  unfold normalizeM2
  dsimp only
  have hinit := foldl_range (n := maxSymbolValue + 1)
    (I := fun k st => NormalizerM2.Inv count total tableLog k st ∧
      Above count ((total * 3) >>> (tableLog + 1)) k st.norm)
    (f := NormalizerM2.init count (total >>> tableLog) ((total * 3) >>> (tableLog + 1)) low)
    (b := ⟨0, total, norm⟩)
    ⟨⟨⟨fun s hs => absurd hs (Nat.not_lt_zero s), fun s hs => absurd hs (Nat.not_lt_zero s),
      fun s hs => absurd hs (Nat.not_lt_zero s)⟩, rfl, by simp [unassigned]⟩,
      fun s hs => absurd hs (Nat.not_lt_zero s)⟩
    fun k hk st hI => ⟨hI.1.init (hle _ hk) hlow, hI.2.init hlow⟩
  generalize (List.range (maxSymbolValue + 1)).foldl
    (NormalizerM2.init count (total >>> tableLog) ((total * 3) >>> (tableLog + 1)) low)
    ⟨0, total, norm⟩ = st₁ at *
  obtain ⟨hI₁, habove₁⟩ := hinit
  -- the first pass leaves some cells
  have hlt₁ := hI₁.few.cumul_lt hsum hmin
  have hadd₁ := hI₁.few.cumul_add_le le_rfl
  rw [← hI₁.whole hsum, hsum] at hadd₁
  rw [← hI₁.dist] at hlt₁ hadd₁
  obtain ⟨hleft₁, hleft0₁⟩ := toDistribute_eq hlog hlt₁
  rw [if_neg hleft0₁]
  -- and so do both; the symbols that are left are worth a cell
  obtain ⟨st, hst, hI, hworth⟩ : ∃ st, (if (total * 3) >>> (tableLog + 1) <
        st₁.total / toDistribute tableLog st₁.distributed
      then (List.range (maxSymbolValue + 1)).foldl (NormalizerM2.more count
        (st₁.total * 3 / (toDistribute tableLog st₁.distributed * 2) % 2 ^ 32)) st₁
      else st₁) = st ∧ NormalizerM2.Inv count total tableLog (maxSymbolValue + 1) st ∧
      ∀ s ≤ maxSymbolValue, st.norm s = notYetAssigned →
        st.total < count s * toDistribute tableLog st.distributed := by
    split_ifs with hpass
    · set lowOne := st₁.total * 3 / (toDistribute tableLog st₁.distributed * 2) % 2 ^ 32 with hlowOne
      obtain ⟨hI, hafter⟩ := foldl_range (n := maxSymbolValue + 1)
        (I := fun k st => NormalizerM2.Inv count total tableLog (maxSymbolValue + 1) st ∧
          NormalizerM2.After count lowOne st₁ k st) (f := NormalizerM2.more count lowOne)
        (b := st₁) ⟨hI₁, fun s hs => absurd hs (Nat.not_lt_zero s), le_rfl, le_rfl⟩
        fun k hk st hI => ⟨hI.1.more (hle _ le_rfl) hk, hI.2.more⟩
      generalize (List.range (maxSymbolValue + 1)).foldl (NormalizerM2.more count lowOne) st₁ = st at *
      refine ⟨st, rfl, hI, fun s hs hn => ?_⟩
      have hlt := hI.few.cumul_lt hsum hmin
      have hfew := cumul_lt_of_none hI.few.cells_le (show s < maxSymbolValue + 1 by omega)
        (by rw [cellsOf, hn]; rfl)
      rw [← hI.dist] at hlt hfew
      have hleft := (toDistribute_eq hlog hlt).1
      -- counts below the table size leave no room for a pass
      have hhalf : 2 * (maxSymbolValue + 1) ≤ 2 ^ tableLog := by
        refine (minTableLog_le hmin).resolve_left fun hsmall => ?_
        rw [Nat.div_eq_of_lt (by omega)] at hpass
        exact absurd hpass (Nat.not_lt_zero _)
      have h31 : 2 ^ 5 ≤ 2 ^ tableLog := Nat.pow_le_pow_right (by omega) h5
      have hfirst : st₁.distributed ≤ maxSymbolValue + 1 := by
        rw [hI₁.dist]
        exact cumul_le hI₁.few.cells_le
      have hsmall : lowOne = st₁.total * 3 / (toDistribute tableLog st₁.distributed * 2) := by
        refine Nat.mod_eq_of_lt ((Nat.div_lt_iff_lt_mul (by omega)).mpr ?_)
        omega
      have hc := hafter.above s (by omega) hn
      rw [hsmall, show toDistribute tableLog st₁.distributed = 2 ^ tableLog - st₁.distributed by omega]
        at hc
      rw [Nat.shiftRight_eq_div_pow, Nat.pow_succ',
        show toDistribute tableLog st₁.distributed = 2 ^ tableLog - st₁.distributed by omega] at hpass
      rw [show toDistribute tableLog st.distributed = 2 ^ tableLog - st.distributed by omega]
      exact worth_second (by omega) hpass hafter.distributed_le (by omega) hafter.total_le hc
    · refine ⟨_, rfl, hI₁, fun s hs hn => ?_⟩
      exact (Nat.div_lt_iff_lt_mul (Nat.pos_of_ne_zero hleft0₁)).mp
        ((not_lt.mp hpass).trans_lt (habove₁ s (by omega) hn))
  rw [hst]
  have hlt := hI.few.cumul_lt hsum hmin
  have hrest := hI.whole hsum
  have hadd := hI.few.cumul_add_le le_rfl
  rw [← hrest, hsum] at hadd
  rw [← hI.dist] at hlt
  obtain ⟨hleft, hleft0⟩ := toDistribute_eq hlog hlt
  split_ifs with hfull hnone
  · exact ⟨_, rfl, hI.few.give_max hbig (hI.dist.symm.trans hfull) (hfull ▸ hleft)⟩
  · exact ⟨_, rfl, hI.few.give_round hbig hleft0 (hI.dist ▸ hleft) (hrest.symm.trans hnone)⟩
  · obtain ⟨r, hr, hN⟩ := hI.few.give_scaled hlog hrest hnone (by omega) (hI.dist ▸ hleft) hworth
    rw [hr]
    exact ⟨_, rfl, hN⟩

/-- **The counts come to something**: what `FSE_normalizeCount` does where the table log is enough. -/
theorem normalize_spec (norm₀ : ℕ → ℤ) (useLowProbCount : Bool)
    (hsum : ∑ s ∈ Finset.range (maxSymbolValue + 1), count s = total) (h0 : 0 < total)
    (h32 : total < 2 ^ 32) (h5 : 5 ≤ tableLog) (hlog : tableLog ≤ 12)
    (hmin : minTableLog total maxSymbolValue ≤ tableLog) :
    ((∃ s ≤ maxSymbolValue, count s = total) ∧ ∃ nc,
        normalizeCount norm₀ tableLog count total maxSymbolValue useLowProbCount = .ok (0, nc)) ∨
      ((∀ s ≤ maxSymbolValue, count s ≠ total) ∧ ∃ nc,
        normalizeCount norm₀ tableLog count total maxSymbolValue useLowProbCount = .ok (tableLog, nc) ∧
        Normalized count maxSymbolValue tableLog nc) := by
  have hlow : (if useLowProbCount = true then -1 else 1 : ℤ) = -1 ∨
      (if useLowProbCount = true then -1 else 1 : ℤ) = 1 := by
    cases useLowProbCount <;> simp
  have hloop := foldlM_range (n := maxSymbolValue + 1)
    (I := fun k st => Normalizer.Inv tableLog count total k st ∧ ∀ s < k, count s ≠ total)
    (f := Normalizer.step tableLog count total (if useLowProbCount = true then -1 else 1))
    (b := ⟨(1 <<< tableLog : ℕ), 0, 0, norm₀⟩)
    ⟨⟨fun s hs => absurd hs (Nat.not_lt_zero s), fun s hs => absurd hs (Nat.not_lt_zero s),
      by simp [cumul, Nat.one_shiftLeft], .inr ⟨rfl, fun s hs => absurd hs (Nat.not_lt_zero s)⟩⟩,
      fun s hs => absurd hs (Nat.not_lt_zero s)⟩
    fun k hk b b' hI hb => by
      refine ⟨hI.1.step hlow h0 (by omega) hb, fun s hs => ?_⟩
      rcases Nat.lt_succ_iff_lt_or_eq.mp hs with hlt | rfl
      · exact hI.2 s hlt
      · intro heq
        rw [Normalizer.step, if_pos heq] at hb
        cases hb
  have hrun : normalizeCount norm₀ tableLog count total maxSymbolValue useLowProbCount =
      match (List.range (maxSymbolValue + 1)).foldlM
        (Normalizer.step tableLog count total (if useLowProbCount = true then -1 else 1))
        ⟨(1 <<< tableLog : ℕ), 0, 0, norm₀⟩ with
      | .error norm => .ok (0, norm)
      | .ok st =>
        if st.norm st.largest / 2 ≤ -st.stillToDistribute then
          match normalizeM2 st.norm tableLog count total maxSymbolValue
            (if useLowProbCount = true then -1 else 1) with
          | .error e => .error e
          | .ok norm => .ok (tableLog, norm)
        else
          .ok (tableLog,
            Function.update st.norm st.largest (st.norm st.largest + st.stillToDistribute)) := by
    rw [normalizeCount]
    dsimp only
    rw [if_neg (show tableLog ≠ 0 by omega), if_neg (by omega), if_neg (by omega), if_neg (by omega)]
  generalize (if useLowProbCount = true then -1 else 1 : ℤ) = low at hlow hloop hrun
  rcases hloop with ⟨st, hst, hI, hne⟩ | ⟨nc, k, st, hk, hI, herr, hst⟩
  · right
    rw [hst] at hrun
    dsimp only at hrun
    have hne' : ∀ s ≤ maxSymbolValue, count s ≠ total := fun s hs => hne s (by omega)
    obtain ⟨hlt, hp, hpos⟩ : st.largest < maxSymbolValue + 1 ∧ st.norm st.largest = st.largestP ∧
        0 < st.largestP := by
      rcases hI.largest with h | ⟨-, hall⟩
      · exact h
      · obtain ⟨b, hb, hbc⟩ := exists_big hsum h0 hmin
        exact absurd (hall b (by omega)) (not_le.mpr hbc)
    split_ifs at hrun with hmany
    · obtain ⟨nc, hM2, hN⟩ := normalizeM2_spec st.norm hsum h0 h32 h5 hlog hmin hlow
      rw [hM2] at hrun
      exact ⟨hne', nc, hrun, hN⟩
    · -- what the largest takes, or gives, leaves it a cell
      have hone : 0 < st.norm st.largest + st.stillToDistribute := by omega
      refine ⟨hne', _, hrun, fun s hs => ?_, fun s hs => ?_, ?_⟩
      · rcases eq_or_ne s st.largest with rfl | hne
        · rw [Function.update_self]
          omega
        · rw [Function.update_of_ne hne]
          exact hI.ge s (by omega)
      · have hz := hI.zero_iff s (by omega)
        rcases eq_or_ne s st.largest with rfl | hne
        · rw [Function.update_self]
          omega
        · rw [Function.update_of_ne hne]
          exact hz
      · have hgive := cumul_update_lt st.norm (c := st.norm st.largest + st.stillToDistribute) hlt
        rw [cellsOf_of_pos hone, cellsOf, if_neg (by omega)] at hgive
        have := hI.sum_eq
        zify
        omega
  · left
    rw [hst] at hrun
    refine ⟨⟨k, by omega, ?_⟩, nc, hrun⟩
    unfold Normalizer.step at herr
    split_ifs at herr with hall
    exact hall

/-- Such counts are a distribution. -/
def Normalized.distribution (h : Normalized count maxSymbolValue tableLog nc) (h5 : 5 ≤ tableLog)
    (hlog : tableLog ≤ 12) (hmax : maxSymbolValue ≤ 255) : Distribution where
  nc := nc
  maxSymbolValue := maxSymbolValue
  tableLog := tableLog
  ge := h.ge
  sum_eq := h.sum_eq
  log_ge := h5
  log_le := by omega
  symbol_le := hmax

/-- **`FSE_normalizeCount` makes a distribution of any counts**: of the table log it is given, if that
is enough for them, and over the symbols that occur; it does not fail.  Only for a symbol that has all
of them it says 0. -/
theorem normalizeCount_distribution (norm₀ : ℕ → ℤ) (useLowProbCount : Bool)
    (hsum : ∑ s ∈ Finset.range (maxSymbolValue + 1), count s = total) (h0 : 0 < total)
    (h32 : total < 2 ^ 32) (hmax : maxSymbolValue ≤ 255) (h5 : 5 ≤ tableLog) (hlog : tableLog ≤ 12)
    (hmin : minTableLog total maxSymbolValue ≤ tableLog) :
    ((∃ s ≤ maxSymbolValue, count s = total) ∧ ∃ nc,
        normalizeCount norm₀ tableLog count total maxSymbolValue useLowProbCount = .ok (0, nc)) ∨
      ((∀ s ≤ maxSymbolValue, count s ≠ total) ∧ ∃ d : Distribution,
        normalizeCount norm₀ tableLog count total maxSymbolValue useLowProbCount = .ok (tableLog, d.nc) ∧
        d.maxSymbolValue = maxSymbolValue ∧ d.tableLog = tableLog ∧
        ∀ s ≤ maxSymbolValue, d.nc s = 0 ↔ count s = 0) := by
  refine (normalize_spec norm₀ useLowProbCount hsum h0 h32 h5 hlog hmin).imp_right ?_
  rintro ⟨hne, nc, hrun, hN⟩
  exact ⟨hne, hN.distribution h5 hlog hmax, hrun, rfl, rfl, hN.zero_iff⟩

theorem normalizeCount_distribution_three : ∃ d : Distribution,
    normalizeCount (fun _ => 0) 5 (fun s => [5, 3, 1].getD s 0) 9 2 true = .ok (5, d.nc) ∧
      ∀ s ≤ 2, d.nc s = 0 ↔ [5, 3, 1].getD s 0 = 0 := by
  have hsum : ∑ s ∈ Finset.range (2 + 1), [5, 3, 1].getD s 0 = 9 := by decide
  rcases normalizeCount_distribution (fun _ => 0) true hsum (by decide) (by decide) (by decide)
    (show 5 ≤ 5 by decide) (by decide) (by decide) with ⟨hall, -⟩ | ⟨-, d, hrun, -, -, hzero⟩
  · exact absurd hall (by decide)
  · exact ⟨d, hrun, hzero⟩

end ZramUpgrade.Zstd
