import ZramUpgrade.Lib.Absorb
import ZramUpgrade.Zstd.Xxh64

/-!
# Zstd.Xxh64Refine — streaming xxh64 is whole-input XXH64

`Spec.xxh64` states XXH64 over a whole input: four lanes over the 32-byte stripes, merge, tail and
avalanche, every word addressed by its index.  The streaming state of `Zstd.Xxh64` keeps the
accumulator and tail of `Lib.absorb` (`Holds`); one update preserves that for every chunk
(`update_holds`), and the digest of a state that holds a message is its XXH64 (`digest_eq`).
-/

namespace ZramUpgrade.Xxh64

open Lib

/-! ## The reference -/

namespace Spec

def prime1 : UInt64 := 11400714785074694791
def prime2 : UInt64 := 14029467366897019727
def prime3 : UInt64 := 1609587929392839161
def prime4 : UInt64 := 9650029242287828579
def prime5 : UInt64 := 2870177450012600261

def rotl (x : UInt64) (r : ℕ) : UInt64 := ⟨x.toBitVec.rotateLeft r⟩

/-- The `n`-byte little-endian word at index `i`. -/
def word (n : ℕ) (input : List UInt8) (i : ℕ) : UInt64 :=
  UInt64.ofNat (leNat ((input.drop i).take n))

def round (acc w : UInt64) : UInt64 := rotl (acc + w * prime2) 31 * prime1

def mergeRound (acc v : UInt64) : UInt64 := (acc ^^^ round 0 v) * prime1 + prime4

/-- Lane `k` over the first `q` stripes. -/
def lane (input : List UInt8) (q k : ℕ) (init : UInt64) : UInt64 :=
  (List.range q).foldl (fun acc i => round acc (word 8 input (32 * i + 8 * k))) init

/-- The accumulator after the stripes: the merged lanes, or the seed alone for a short input. -/
def converge (seed : UInt64) (input : List UInt8) : UInt64 :=
  if 32 ≤ input.length then
    let q := input.length / 32
    let v1 := lane input q 0 (seed + prime1 + prime2)
    let v2 := lane input q 1 (seed + prime2)
    let v3 := lane input q 2 seed
    let v4 := lane input q 3 (seed - prime1)
    let h := rotl v1 1 + rotl v2 7 + rotl v3 12 + rotl v4 18
    mergeRound (mergeRound (mergeRound (mergeRound h v1) v2) v3) v4
  else seed + prime5

/-- The last bytes `t`: 8-byte words, then at most one 4-byte word, then single bytes. -/
def tail (h : UInt64) (t : List UInt8) : UInt64 :=
  let h := (List.range (t.length / 8)).foldl
    (fun h j => rotl (h ^^^ round 0 (word 8 t (8 * j))) 27 * prime1 + prime4) h
  let h := if 4 ≤ t.length % 8 then
      rotl (h ^^^ word 4 t (8 * (t.length / 8)) * prime1) 23 * prime2 + prime3
    else h
  (t.drop (t.length - t.length % 4)).foldl
    (fun h b => rotl (h ^^^ b.toUInt64 * prime5) 11 * prime1) h

def avalanche (h : UInt64) : UInt64 :=
  let h := (h ^^^ (h >>> 33)) * prime2
  let h := (h ^^^ (h >>> 29)) * prime3
  h ^^^ (h >>> 32)

/-- XXH64 of the whole input. -/
def xxh64 (seed : UInt64) (input : List UInt8) : UInt64 :=
  avalanche (tail (converge seed input + UInt64.ofNat input.length)
    (input.drop (32 * (input.length / 32))))

end Spec

/-! ## The mixing functions agree -/

theorem rotl_eq (x r : UInt64) (h0 : 0 < r.toNat) (h : r.toNat < 64) :
    xxh64Rotl x r = Spec.rotl x r.toNat := by
  have hr : (64 - r).toNat = 64 - r.toNat := by
    rw [UInt64.toNat_sub_of_le _ _ (UInt64.le_iff_toNat_le.mpr (by simp; omega))]
    rfl
  have e1 : (r.toBitVec % 64).toNat = r.toNat := by
    rw [BitVec.toNat_umod]; exact Nat.mod_eq_of_lt h
  have e2 : ((64 - r).toBitVec % 64).toNat = 64 - r.toNat := by
    rw [BitVec.toNat_umod]
    show (64 - r).toNat % 64 = _
    rw [hr]; omega
  apply UInt64.toBitVec_inj.mp
  simp only [xxh64Rotl, Spec.rotl, UInt64.toBitVec_or, UInt64.toBitVec_shiftLeft,
    UInt64.toBitVec_shiftRight, BitVec.rotateLeft_def, Nat.mod_eq_of_lt h, BitVec.shiftLeft_eq',
    BitVec.ushiftRight_eq', e1, e2]

theorem round_eq (acc w : UInt64) : xxh64Round acc w = Spec.round acc w := by
  simp only [xxh64Round, Spec.round, rotl_eq _ 31 (by decide) (by decide)]
  rfl

theorem mergeRound_eq (acc v : UInt64) : xxh64MergeRound acc v = Spec.mergeRound acc v := by
  simp only [xxh64MergeRound, Spec.mergeRound, round_eq]
  rfl

theorem avalanche_eq (h : UInt64) : xxh64Avalanche h = Spec.avalanche h := rfl

theorem le64_eq (p : List UInt8) : getUnalignedLe64 p = Spec.word 8 p 0 := by
  simp [getUnalignedLe64, Spec.word]

theorem leNat_lt (l : List UInt8) : leNat l < 256 ^ l.length := by
  induction l with
  | nil => simp [leNat]
  | cons b l ih =>
    have := b.toNat_lt
    simp only [leNat, List.length_cons, Nat.pow_succ]
    omega

theorem le32_eq (p : List UInt8) : (getUnalignedLe32 p).toUInt64 = Spec.word 4 p 0 := by
  have hlen : (p.take 4).length ≤ 4 := List.length_take_le 4 p
  have hlt : leNat (p.take 4) < 2 ^ 32 :=
    lt_of_lt_of_le (leNat_lt _) (Nat.pow_le_pow_right (by decide) hlen)
  apply UInt64.toNat_inj.mp
  simp only [getUnalignedLe32, Spec.word, List.drop_zero, UInt32.toNat_toUInt64,
    UInt32.toNat_ofNat', UInt64.toNat_ofNat']
  omega

/-! ## Finalisation -/

theorem word_drop (n : ℕ) (p : List UInt8) (i j : ℕ) :
    Spec.word n (p.drop i) j = Spec.word n p (i + j) := by
  simp [Spec.word, List.drop_drop]

/-- The word loop of `xxh64_finalize` folds the 8-byte words and keeps the rest of the tail. -/
theorem finalizeWords_eq (len : ℕ) : ∀ (hash : UInt64) (ptr : List UInt8),
    xxh64FinalizeWords hash ptr len =
      ((List.range (len / 8)).foldl (fun h j => Spec.rotl (h ^^^ Spec.round 0
          (Spec.word 8 ptr (8 * j))) 27 * Spec.prime1 + Spec.prime4) hash,
        ptr.drop (8 * (len / 8)), len % 8) := by
  induction len using Nat.strong_induction_on with
  | _ len ih =>
    intro hash ptr
    by_cases h : 8 ≤ len
    · have hdiv : len / 8 = (len - 8) / 8 + 1 := by omega
      rw [xxh64FinalizeWords, if_pos h]
      simp only []
      rw [ih (len - 8) (by omega), hdiv, List.range_succ_eq_map, List.foldl_cons, List.foldl_map,
        round_eq, rotl_eq _ _ (by decide) (by decide), le64_eq]
      refine Prod.ext ?_ (Prod.ext ?_ ?_)
      · simp only [word_drop, Nat.mul_zero, Nat.succ_eq_add_one, Nat.mul_add, Nat.mul_one,
          Nat.add_comm 8]
        rfl
      · simp only [List.drop_drop]
        congr 1; omega
      · simp only []; omega
    · rw [xxh64FinalizeWords, if_neg h]
      simp only [show len / 8 = 0 by omega, show len % 8 = len by omega]
      simp

/-- The byte loop of `xxh64_finalize` folds the next `len` bytes. -/
theorem finalizeBytes_eq (len : ℕ) : ∀ (hash : UInt64) (ptr : List UInt8), len ≤ ptr.length →
    xxh64FinalizeBytes hash ptr len = (ptr.take len).foldl
      (fun h b => Spec.rotl (h ^^^ b.toUInt64 * Spec.prime5) 11 * Spec.prime1) hash := by
  induction len with
  | zero => intro hash ptr _; simp [xxh64FinalizeBytes]
  | succ len ih =>
    intro hash ptr hlen
    cases ptr with
    | nil => simp at hlen
    | cons b ptr =>
      simp only [xxh64FinalizeBytes, List.getD_cons_zero, List.drop_succ_cons, List.drop_zero,
        List.take_succ_cons, List.foldl_cons]
      rw [ih _ _ (by simpa using hlen), rotl_eq _ _ (by decide) (by decide)]
      rfl

theorem drop_take_append {t rest : List UInt8} {k n : ℕ} (h : k + n = t.length) :
    ((t ++ rest).drop k).take n = t.drop k := by
  rw [List.drop_append_of_le_length (by omega),
    List.take_append_of_le_length (by rw [List.length_drop]; omega), List.take_of_length_le
    (by rw [List.length_drop]; omega)]

/-- `xxh64_finalize` on a buffer that starts with the tail `t` is the reference tail of `t`. -/
theorem finalize_eq (hash : UInt64) (t rest : List UInt8) (len : UInt64)
    (hlen : (len &&& 31).toNat = t.length) :
    xxh64Finalize hash (t ++ rest) len = Spec.avalanche (Spec.tail hash t) := by
  have hw : ∀ n i, n + i ≤ t.length → Spec.word n (t ++ rest) i = Spec.word n t i := by
    intro n i h
    unfold Spec.word
    rw [List.drop_append_of_le_length (by omega),
      List.take_append_of_le_length (by rw [List.length_drop]; omega)]
  have hfold : (List.range (t.length / 8)).foldl (fun h j => Spec.rotl (h ^^^ Spec.round 0
      (Spec.word 8 (t ++ rest) (8 * j))) 27 * Spec.prime1 + Spec.prime4) hash =
      (List.range (t.length / 8)).foldl (fun h j => Spec.rotl (h ^^^ Spec.round 0
      (Spec.word 8 t (8 * j))) 27 * Spec.prime1 + Spec.prime4) hash := by
    refine List.foldl_ext _ _ _ fun h j hj => ?_
    rw [List.mem_range] at hj
    rw [hw 8 (8 * j) (by omega)]
  unfold xxh64Finalize Spec.tail
  simp only [hlen, finalizeWords_eq, hfold, avalanche_eq, xxh64FinalizeHalf]
  congr 1
  by_cases h4 : 4 ≤ t.length % 8
  · rw [if_pos h4, if_pos h4]
    simp only []
    rw [finalizeBytes_eq _ _ _ (by simp; omega), List.drop_drop,
      drop_take_append (t := t) (k := 8 * (t.length / 8) + 4) (by omega), le32_eq, word_drop,
      hw 4 _ (by omega), rotl_eq _ _ (by decide) (by decide)]
    rw [show t.length - t.length % 4 = 8 * (t.length / 8) + 4 by omega]
    rfl
  · rw [if_neg h4, if_neg h4]
    simp only []
    rw [finalizeBytes_eq _ _ _ (by simp; omega),
      drop_take_append (t := t) (k := 8 * (t.length / 8)) (by omega)]
    rw [show t.length - t.length % 4 = 8 * (t.length / 8) by omega]

/-! ## The stripes -/

/-- The four lanes. -/
structure Lanes where
  v1 : UInt64
  v2 : UInt64
  v3 : UInt64
  v4 : UInt64

def Xxh64State.lanes (s : Xxh64State) : Lanes := ⟨s.v1, s.v2, s.v3, s.v4⟩

/-- One 32-byte stripe. -/
def stripe (v : Lanes) (p : List UInt8) : Lanes :=
  ⟨Spec.round v.v1 (Spec.word 8 p 0), Spec.round v.v2 (Spec.word 8 p 8),
    Spec.round v.v3 (Spec.word 8 p 16), Spec.round v.v4 (Spec.word 8 p 24)⟩

/-- The lanes and tail of a message. -/
def digestState (seed : UInt64) (msg : List UInt8) : Lanes × List UInt8 :=
  absorb (n := 32) (by decide) stripe (xxh64Reset seed).lanes msg

theorem lanes_rounds (s : Xxh64State) (p : List UInt8) :
    (s.rounds p).lanes = stripe s.lanes p := by
  simp [Xxh64State.rounds, Xxh64State.lanes, stripe, round_eq, le64_eq, word_drop]

theorem rounds_totalLen (s : Xxh64State) (p : List UInt8) :
    (s.rounds p).totalLen = s.totalLen := by cases s; rfl

theorem rounds_mem64 (s : Xxh64State) (p : List UInt8) : (s.rounds p).mem64 = s.mem64 := by
  cases s; rfl

theorem rounds_memsize (s : Xxh64State) (p : List UInt8) : (s.rounds p).memsize = s.memsize := by
  cases s; rfl

/-- `stripe` reads the first 32 bytes only. -/
theorem stripe_take (v : Lanes) (p : List UInt8) : stripe v (p.take 32) = stripe v p := by
  simp [stripe, Spec.word, List.drop_take, List.take_take]

/-- The stripe loop absorbs its input and touches nothing but the lanes. -/
theorem stripes_eq (s : Xxh64State) (p : List UInt8) :
    (xxh64Stripes s p).1.lanes = (absorb (n := 32) (by decide) stripe s.lanes p).1 ∧
    (xxh64Stripes s p).2 = (absorb (n := 32) (by decide) stripe s.lanes p).2 ∧
    (xxh64Stripes s p).1.totalLen = s.totalLen ∧ (xxh64Stripes s p).1.mem64 = s.mem64 ∧
    (xxh64Stripes s p).1.memsize = s.memsize := by
  induction hk : p.length using Nat.strong_induction_on generalizing s p with
  | _ k ih =>
    by_cases h : 32 ≤ p.length
    · obtain ⟨h1, h2, h3, h4, h5⟩ :=
        ih (p.drop 32).length (by simp; omega) (s.rounds p) (p.drop 32) rfl
      rw [lanes_rounds] at h1 h2
      rw [xxh64Stripes, if_pos h, absorb_of_le _ _ h, stripe_take]
      exact ⟨h1, h2, h3.trans (rounds_totalLen s p), h4.trans (rounds_mem64 s p),
        h5.trans (rounds_memsize s p)⟩
    · rw [xxh64Stripes, if_neg h, absorb_of_lt _ _ (Nat.lt_of_not_le h)]
      exact ⟨rfl, rfl, rfl, rfl, rfl⟩

theorem reset_lanes (seed : UInt64) : (xxh64Reset seed).lanes =
    ⟨seed + Spec.prime1 + Spec.prime2, seed + Spec.prime2, seed, seed - Spec.prime1⟩ := rfl

/-- The lanes of a message are the reference lanes. -/
theorem digestState_lanes (seed : UInt64) (msg : List UInt8) :
    (digestState seed msg).1 =
      ⟨Spec.lane msg (msg.length / 32) 0 (seed + Spec.prime1 + Spec.prime2),
        Spec.lane msg (msg.length / 32) 1 (seed + Spec.prime2),
        Spec.lane msg (msg.length / 32) 2 seed,
        Spec.lane msg (msg.length / 32) 3 (seed - Spec.prime1)⟩ := by
  have key : ∀ (L : List ℕ) (v : Lanes),
      L.foldl (fun b i => stripe b ((msg.drop (32 * i)).take 32)) v =
        ⟨L.foldl (fun acc i => Spec.round acc (Spec.word 8 msg (32 * i + 8 * 0))) v.v1,
          L.foldl (fun acc i => Spec.round acc (Spec.word 8 msg (32 * i + 8 * 1))) v.v2,
          L.foldl (fun acc i => Spec.round acc (Spec.word 8 msg (32 * i + 8 * 2))) v.v3,
          L.foldl (fun acc i => Spec.round acc (Spec.word 8 msg (32 * i + 8 * 3))) v.v4⟩ := by
    intro L
    induction L with
    | nil => intro v; rfl
    | cons i L ih =>
      intro v
      rw [List.foldl_cons, ih, stripe_take]
      simp [stripe, word_drop]
  unfold digestState
  rw [absorb_fst, key, reset_lanes]
  simp only [Spec.lane]

/-! ## One update -/

/-- A copy that fits appends to the bytes before it. -/
theorem memcpyMem64_spec (mem : Vector UInt8 32) (off : ℕ) (p : List UInt8)
    (h : off + p.length ≤ 32) :
    ∃ mem', memcpyMem64 mem off p = some mem' ∧
      mem'.toList.take (off + p.length) = mem.toList.take off ++ p := by
  unfold memcpyMem64
  rw [if_pos h]
  refine ⟨_, rfl, List.ext_getElem (by simp; omega) fun i hi _ => ?_⟩
  have hi' : i < off + p.length := by
    rw [List.length_take] at hi; omega
  rw [List.getElem_take]
  by_cases hio : i < off
  · rw [List.getElem_append_left (by simp; omega)]
    simp [show ¬ off ≤ i by omega]
  · rw [List.getElem_append_right (by simp; omega)]
    simp [show off ≤ i by omega, hi', show min off 32 = off by omega,
      List.getElem?_eq_getElem (show i - off < p.length by omega)]

/-- `s` holds the message `msg`: its lanes and buffer are those of the whole message. -/
structure Holds (seed : UInt64) (s : Xxh64State) (msg : List UInt8) : Prop where
  total : s.totalLen = UInt64.ofNat msg.length
  lanes : s.lanes = (digestState seed msg).1
  size : s.memsize.toNat = (digestState seed msg).2.length
  mem : s.mem64.toList.take s.memsize.toNat = (digestState seed msg).2

theorem reset_holds (seed : UInt64) : Holds seed (xxh64Reset seed) [] := by
  have h : digestState seed [] = ((xxh64Reset seed).lanes, []) :=
    absorb_of_lt _ _ (by decide) _
  exact ⟨rfl, by rw [h], by rw [h]; rfl, by rw [h]; rfl⟩

theorem digestState_append (seed : UInt64) (msg p : List UInt8) :
    digestState seed (msg ++ p) = absorb (n := 32) (by decide) stripe (digestState seed msg).1
      ((digestState seed msg).2 ++ p) :=
  absorb_append _ _ _ _ _

theorem digestState_tail_lt (seed : UInt64) (msg : List UInt8) :
    (digestState seed msg).2.length < 32 :=
  absorb_length_lt _ _ _ _

/-- Completing the buffered stripe: what is still to absorb does not change. -/
theorem fill_spec {s : Xxh64State} {t p : List UInt8} (ht : t.length < 32)
    (hsize : s.memsize.toNat = t.length) (hmem : s.mem64.toList.take s.memsize.toNat = t)
    (hp : 32 ≤ t.length + p.length) :
    ∃ s' p', xxh64Fill s p = some (s', p') ∧ s'.totalLen = s.totalLen ∧ s'.memsize = 0 ∧
      absorb (n := 32) (by decide) stripe s.lanes (t ++ p) =
        absorb (n := 32) (by decide) stripe s'.lanes p' := by
  unfold xxh64Fill
  by_cases h0 : s.memsize = 0
  · have ht0 : t = [] := List.eq_nil_of_length_eq_zero (by rw [← hsize, h0]; rfl)
    rw [if_neg (not_not.mpr h0), ht0]
    exact ⟨s, p, rfl, rfl, h0, rfl⟩
  · have hlen : (p.take (32 - s.memsize.toNat)).length = 32 - t.length := by
      rw [List.length_take, hsize]; omega
    obtain ⟨mem', hcpy, htake⟩ := memcpyMem64_spec s.mem64 s.memsize.toNat
      (p.take (32 - s.memsize.toNat)) (by rw [hlen, hsize]; omega)
    have hall : mem'.toList = t ++ p.take (32 - s.memsize.toNat) := by
      rw [hmem] at htake
      rw [← htake, List.take_of_length_le (by rw [hlen, hsize, Vector.length_toList]; omega)]
    rw [if_pos h0]
    simp only [hcpy, Option.bind_eq_bind, Option.bind_some, Option.pure_def]
    refine ⟨_, _, rfl, rounds_totalLen { s with mem64 := mem' } mem'.toList, rfl, ?_⟩
    have hblock : (t ++ p.take (32 - s.memsize.toNat)).length = 32 := by
      rw [List.length_append, hlen]; omega
    have hsplit : t ++ p = (t ++ p.take (32 - s.memsize.toNat)) ++
        p.drop (32 - s.memsize.toNat) := by simp
    have hl := lanes_rounds { s with mem64 := mem' } mem'.toList
    rw [hsplit, absorb_block _ _ hblock, ← hall]
    exact congrArg (fun v => absorb _ stripe v _) hl.symm

section Update

variable {seed : UInt64} {s : Xxh64State} {msg p : List UInt8}

theorem Holds.total_append (h : Holds seed s msg) (p : List UInt8) :
    s.totalLen + UInt64.ofNat p.length = UInt64.ofNat (msg ++ p).length := by
  rw [h.total, List.length_append, UInt64.ofNat_add]

/-- A chunk that completes no stripe goes behind what the buffer holds. -/
theorem update_buffered (h : Holds seed s msg) (hsmall : s.memsize.toNat + p.length < 32) :
    ∃ s', xxh64Update s (.buf p) = some (0, s') ∧ Holds seed s' (msg ++ p) := by
  have hmod : (s.memsize.toNat + p.length) % 2 ^ 64 = s.memsize.toNat + p.length :=
    Nat.mod_eq_of_lt (by omega)
  obtain ⟨mem', hcpy, htake⟩ := memcpyMem64_spec s.mem64 s.memsize.toNat p hsmall.le
  unfold xxh64Update
  simp only [hmod, if_pos hsmall, hcpy, Option.bind_eq_bind, Option.bind_some, Option.pure_def]
  have hsize := h.size
  have hd : digestState seed (msg ++ p) =
      ((digestState seed msg).1, (digestState seed msg).2 ++ p) := by
    rw [digestState_append]
    exact absorb_of_lt _ _ (by rw [List.length_append]; omega) _
  have hnew : (s.memsize + UInt32.ofNat p.length).toNat = s.memsize.toNat + p.length := by
    rw [UInt32.toNat_add, UInt32.toNat_ofNat']
    omega
  refine ⟨_, rfl, h.total_append p, ?_, ?_, ?_⟩
  · rw [hd]; exact h.lanes
  · rw [hd, List.length_append, ← hsize]; exact hnew
  · show mem'.toList.take (s.memsize + UInt32.ofNat p.length).toNat = _
    rw [hd, hnew, htake, h.mem]

/-- A chunk that completes a stripe: the lanes take every whole one, the buffer what is left. -/
theorem update_absorbed (h : Holds seed s msg)
    (hmod : (s.memsize.toNat + p.length) % 2 ^ 64 = s.memsize.toNat + p.length)
    (hlarge : 32 ≤ s.memsize.toNat + p.length) :
    ∃ s', xxh64Update s (.buf p) = some (0, s') ∧ Holds seed s' (msg ++ p) := by
  have hsize := h.size
  obtain ⟨s1, p1, hfill, htot1, hms1, habs⟩ := fill_spec
    (s := { s with totalLen := s.totalLen + UInt64.ofNat p.length })
    (p := p) (digestState_tail_lt seed msg) hsize h.mem (by omega)
  unfold xxh64Update
  simp only [hmod, if_neg (Nat.not_lt_of_le hlarge), hfill, Option.bind_eq_bind, Option.bind_some,
    Option.pure_def]
  obtain ⟨hl, ht, hto, hme, hms⟩ := stripes_eq s1 p1
  have hd : digestState seed (msg ++ p) =
      ((xxh64Stripes s1 p1).1.lanes, (xxh64Stripes s1 p1).2) := by
    rw [digestState_append, hl, ht, ← h.lanes]
    exact habs
  have htot : (xxh64Stripes s1 p1).1.totalLen = UInt64.ofNat (msg ++ p).length := by
    rw [hto, htot1]
    exact h.total_append p
  have hlt : (xxh64Stripes s1 p1).2.length < 32 := by
    have htail := digestState_tail_lt seed (msg ++ p)
    rwa [hd] at htail
  by_cases hrest : 0 < (xxh64Stripes s1 p1).2.length
  · obtain ⟨mem', hcpy, htake⟩ := memcpyMem64_spec (xxh64Stripes s1 p1).1.mem64 0
      (xxh64Stripes s1 p1).2 (by omega)
    rw [if_pos hrest]
    simp only [hcpy, Option.bind_some]
    have hnew : (UInt32.ofNat (xxh64Stripes s1 p1).2.length).toNat =
        (xxh64Stripes s1 p1).2.length := by
      rw [UInt32.toNat_ofNat']; omega
    refine ⟨_, rfl, htot, ?_, ?_, ?_⟩
    · rw [hd]; rfl
    · rw [hd]; exact hnew
    · show mem'.toList.take (UInt32.ofNat (xxh64Stripes s1 p1).2.length).toNat = _
      rw [hd, hnew]
      simpa using htake
  · have hnil : (xxh64Stripes s1 p1).2 = [] := List.eq_nil_of_length_eq_zero (by omega)
    have hms0 : (xxh64Stripes s1 p1).1.memsize.toNat = 0 := by rw [hms, hms1]; rfl
    rw [if_neg hrest]
    refine ⟨_, rfl, htot, ?_, ?_, ?_⟩
    · rw [hd]
    · rw [hd, hnil, hms0]; rfl
    · rw [hd, hnil, hms0]; rfl

/-- **One update** keeps the message, however it is split, and never leaves the buffer. -/
theorem update_holds (h : Holds seed s msg) (hlen : msg.length + p.length < 2 ^ 64) :
    ∃ s', xxh64Update s (.buf p) = some (0, s') ∧ Holds seed s' (msg ++ p) := by
  by_cases hsmall : s.memsize.toNat + p.length < 32
  · exact update_buffered h hsmall
  · have htail : (digestState seed msg).2.length ≤ msg.length := by
      rw [digestState, absorb_snd_length]
      exact Nat.mod_le _ _
    have hsize := h.size
    exact update_absorbed h (Nat.mod_eq_of_lt (by omega)) (Nat.le_of_not_lt hsmall)

end Update

/-! ## The digest -/

theorem totalLen_toNat {n : ℕ} (h : n < 2 ^ 64) : (UInt64.ofNat n).toNat = n := by
  rw [UInt64.toNat_ofNat']
  exact Nat.mod_eq_of_lt h

/-- The length the finalisation sees is the length of the buffered tail. -/
theorem totalLen_and {n : ℕ} (h : n < 2 ^ 64) : (UInt64.ofNat n &&& 31).toNat = n % 32 := by
  rw [UInt64.toNat_and, totalLen_toNat h]
  exact Nat.and_two_pow_sub_one_eq_mod n 5

/-- The digest of a state that holds a message is the reference hash of that message. -/
theorem digest_eq {seed : UInt64} {s : Xxh64State} {msg : List UInt8} (h : Holds seed s msg)
    (hlen : msg.length < 2 ^ 64) : xxh64Digest s = Spec.xxh64 seed msg := by
  have hbuf : s.mem64.toList = (digestState seed msg).2 ++ s.mem64.toList.drop s.memsize.toNat := by
    rw [← h.mem, List.take_append_drop]
  have htail : (digestState seed msg).2 = msg.drop (32 * (msg.length / 32)) :=
    absorb_snd _ _ _ _
  have hand : (s.totalLen &&& 31).toNat = (digestState seed msg).2.length := by
    rw [h.total, totalLen_and hlen, digestState, absorb_snd_length]
  have hle : 32 ≤ s.totalLen ↔ 32 ≤ msg.length := by
    rw [UInt64.le_iff_toNat_le, h.total, totalLen_toNat hlen]
    rfl
  have hlanes := h.lanes
  rw [digestState_lanes, Xxh64State.lanes, Lanes.mk.injEq] at hlanes
  obtain ⟨e1, e2, e3, e4⟩ := hlanes
  unfold xxh64Digest Spec.xxh64
  rw [hbuf, finalize_eq _ _ _ _ hand, htail, h.total]
  congr 3
  unfold Spec.converge
  by_cases h32 : 32 ≤ msg.length
  · rw [if_pos h32, if_pos (by rw [← h.total]; exact hle.mpr h32)]
    simp only [mergeRound_eq, rotl_eq _ 1 (by decide) (by decide),
      rotl_eq _ 7 (by decide) (by decide), rotl_eq _ 12 (by decide) (by decide),
      rotl_eq _ 18 (by decide) (by decide), e1, e2, e3, e4]
    rfl
  · rw [if_neg h32, if_neg (by rw [← h.total]; exact fun hc => h32 (hle.mp hc)), e3,
      Nat.div_eq_of_lt (Nat.lt_of_not_le h32)]
    rfl

/-! ## Any chunking -/

/-- A chunk handed to `xxh64_update`; an empty one may come with a `NULL` pointer. -/
def Input.ofChunk : Option (List UInt8) → Input
  | none => .null 0
  | some p => .buf p

/-- `xxh64_update` on each chunk in order; no result if a call fails or leaves the buffer. -/
def xxh64UpdateAll (s : Xxh64State) : List Input → Option Xxh64State
  | [] => some s
  | c :: cs => do
    let r ← xxh64Update s c
    if r.1 = 0 then xxh64UpdateAll r.2 cs else none

/-- The bytes of a list of chunks. -/
def chunkBytes (chunks : List (Option (List UInt8))) : List UInt8 :=
  chunks.flatMap fun c => c.getD []

theorem updateAll_holds {seed : UInt64} (chunks : List (Option (List UInt8))) :
    ∀ {s : Xxh64State} {msg : List UInt8}, Holds seed s msg →
      msg.length + (chunkBytes chunks).length < 2 ^ 64 →
      ∃ s', xxh64UpdateAll s (chunks.map Input.ofChunk) = some s' ∧
        Holds seed s' (msg ++ chunkBytes chunks) := by
  induction chunks with
  | nil => intro s msg h _; exact ⟨s, rfl, by simpa [chunkBytes] using h⟩
  | cons c chunks ih =>
    intro s msg h hlen
    have hcons : chunkBytes (c :: chunks) = c.getD [] ++ chunkBytes chunks := by
      simp [chunkBytes]
    rw [hcons] at hlen ⊢
    rw [List.length_append] at hlen
    obtain ⟨s1, hs1, h1⟩ : ∃ s1, xxh64Update s (Input.ofChunk c) = some (0, s1) ∧
        Holds seed s1 (msg ++ c.getD []) := by
      cases c with
      | none => exact ⟨s, rfl, by simpa using h⟩
      | some p => exact update_holds h (by simp at hlen; omega)
    obtain ⟨s2, hs2, h2⟩ := ih h1 (by rw [List.length_append]; omega)
    refine ⟨s2, ?_, by rw [← List.append_assoc]; exact h2⟩
    rw [List.map_cons, xxh64UpdateAll, hs1]
    exact hs2

/-- **xxh64 is XXH64 under any chunking**, every copy into `mem64` stays inside it, and the
one-shot call is the single-chunk case. -/
theorem xxh64_chunked (seed : UInt64) (chunks : List (Option (List UInt8)))
    (hlen : (chunkBytes chunks).length < 2 ^ 64) :
    (∃ s, xxh64UpdateAll (xxh64Reset seed) (chunks.map Input.ofChunk) = some s ∧
      xxh64Digest s = Spec.xxh64 seed (chunkBytes chunks)) ∧
    (∀ c, chunks = [c] →
      xxh64 (Input.ofChunk c) seed = some (Spec.xxh64 seed (chunkBytes chunks))) := by
  obtain ⟨s, hs, h⟩ := updateAll_holds chunks (reset_holds seed) (by simpa using hlen)
  rw [List.nil_append] at h
  refine ⟨⟨s, hs, digest_eq h hlen⟩, fun c hc => ?_⟩
  subst hc
  rw [List.map_singleton, xxh64UpdateAll] at hs
  obtain ⟨r, hr, hs⟩ := Option.bind_eq_some_iff.mp hs
  split_ifs at hs with h0
  have hrs : r.2 = s := by simpa [xxh64UpdateAll] using hs
  rw [xxh64, hr]
  simp [hrs, digest_eq h hlen]

/-- The hash of a message split inside and at the end of a stripe, with empty chunks. -/
theorem xxh64_chunked_split : ∃ s, xxh64UpdateAll (xxh64Reset 7)
      ([some (List.replicate 20 1), none, some (List.replicate 44 2), some []].map
        Input.ofChunk) = some s ∧
    xxh64Digest s = Spec.xxh64 7 (chunkBytes
      [some (List.replicate 20 1), none, some (List.replicate 44 2), some []]) :=
  (xxh64_chunked 7 _ (by decide)).1

end ZramUpgrade.Xxh64
