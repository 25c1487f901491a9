import ZramUpgrade.Zram.Apply
import Mathlib.Data.List.DropRight

/-!
# Zram.Install — the module directory: `customize.sh` and edits by hand

The installer writes the algorithm twice: into `zram_algo`, which the user is invited to rewrite,
and into the `comp_algo` entry of `perfinit.conf`.  A text is the list of its bytes, each written as
the character of that number.
-/

namespace ZramUpgrade.Zram

abbrev Text := List Char

def ofBytes (bs : List UInt8) : Text := bs.map fun b => Char.ofNat b.toNat

/-- The bytes of a string literal of the scripts. -/
def utf8 (s : String) : Text := ofBytes (s.toList.flatMap String.utf8EncodeChar)

theorem ofBytes_length (bs : List UInt8) : (ofBytes bs).length = bs.length := List.length_map _

/-- The words of `zram_algo`. -/
def Algo.word : Algo → Text
  | .lz4 => ['l', 'z', '4']
  | .zstd => ['z', 's', 't', 'd']

def Choice.word : Choice → Text
  | .algo a => a.word
  | .default => ['d', 'e', 'f', 'a', 'u', 'l', 't']

/-- The patterns `lz4`, `zstd` and `default` of the `case` statements. -/
def Choice.ofWord (w : Text) : Option Choice :=
  if w = Algo.lz4.word then some (.algo .lz4)
  else if w = Algo.zstd.word then some (.algo .zstd)
  else if w = Choice.default.word then some .default
  else none

theorem Choice.ofWord_eq_some {w : Text} {c : Choice} :
    Choice.ofWord w = some c ↔ w = c.word := by
  unfold Choice.ofWord
  constructor
  · intro h
    split_ifs at h with h₁ h₂ h₃
    · cases h; exact h₁
    · cases h; exact h₂
    · cases h; exact h₃
  · rintro rfl
    rcases c with (_ | _) | _
    · rfl
    · rfl
    · rfl

theorem Algo.word_injective {a b : Algo} (h : a.word = b.word) : a = b := by
  have ha : Choice.ofWord (Choice.algo b).word = some (.algo a) := Choice.ofWord_eq_some.mpr h.symm
  have hb : Choice.ofWord (Choice.algo b).word = some (.algo b) := Choice.ofWord_eq_some.mpr rfl
  rw [ha] at hb
  cases hb
  rfl

/-- The files of the module directory that decide about zram0; `perfinit` is the `comp_algo` entry
of `system_ext/etc/perfinit.conf`, if the file is there. -/
structure ModuleDir where
  enableZram : Bool
  enableZstd : Bool
  zramAlgo : Option Text
  perfinit : Option Text
deriving DecidableEq, Repr

/-- `$(cat zram_algo)`: the shell drops NUL bytes and the newlines at the end. -/
def ModuleDir.algoWord (d : ModuleDir) : Text :=
  ((d.zramAlgo.getD []).filter (· ≠ Char.ofNat 0)).rdropWhile (· = '\n')

def ModuleDir.enabled (d : ModuleDir) : Bool := d.enableZram || d.enableZstd

/-! ## Installation -/

/-- What `pick_option` leaves in `PICKED` for the menus 2 and 3, counted from 1.  Menu 1 decides
only about `enable_piano`. -/
structure Picks where
  driver : ℕ
  algo : ℕ

/-- The answer to "which algorithm for zram0". -/
def Picks.choice (p : Picks) : Choice :=
  if p.algo = 1 then .algo .lz4 else if p.algo = 2 then .algo .zstd else .default

/-- The directory as packaged. -/
def packaged : ModuleDir := ⟨false, false, none, some Algo.lz4.word⟩

/-- `on_install`, for the files of `ModuleDir`. -/
def onInstall (p : Picks) (d : ModuleDir) : ModuleDir :=
  let d := if p.driver = 1 then { d with enableZram := true } else d
  if d.enableZram then
    let d := { d with zramAlgo := some (p.choice.word ++ ['\n']) }
    match p.choice with
    | .default => { d with perfinit := none }
    | .algo a => { d with perfinit := d.perfinit.map fun _ => a.word }
  else { d with zramAlgo := some (Choice.default.word ++ ['\n']), perfinit := none }

/-- `customize.sh`; `system_ext` goes where the driver option is off. -/
def install (p : Picks) : ModuleDir :=
  let d := onInstall p packaged
  if d.enableZram then d else { d with perfinit := none }

/-- What the user may do to `zram_algo` afterwards. -/
inductive Edit where
  | write (t : Text)
  | remove

def ModuleDir.edit (d : ModuleDir) : Edit → ModuleDir
  | .write t => { d with zramAlgo := some t }
  | .remove => { d with zramAlgo := none }

/-- The directory after an installation and a list of edits. -/
def edited (p : Picks) (es : List Edit) : ModuleDir := es.foldl ModuleDir.edit (install p)

/-- Edits of `zram_algo` touch no other file. -/
theorem edited_frame (p : Picks) (es : List Edit) :
    (edited p es).enabled = (install p).enabled ∧ (edited p es).perfinit = (install p).perfinit := by
  unfold edited
  generalize install p = d
  induction es generalizing d with
  | nil => exact ⟨rfl, rfl⟩
  | cons e es ih =>
    obtain ⟨h₁, h₂⟩ := ih (d.edit e)
    cases e with
    | write t => exact ⟨h₁, h₂⟩
    | remove => exact ⟨h₁, h₂⟩

/-- With the driver option on, `perfinit.conf` names the installed algorithm or is gone. -/
theorem install_perfinit {p : Picks} (h : (install p).enabled = true) :
    (install p).perfinit = match p.choice with
      | .algo a => some a.word
      | .default => none := by
  by_cases hd : p.driver = 1
  · unfold install onInstall
    simp only [if_pos hd]
    cases p.choice with
    | algo a => rfl
    | default => rfl
  · unfold install onInstall at h
    simp [if_neg hd, packaged, ModuleDir.enabled] at h

end ZramUpgrade.Zram
