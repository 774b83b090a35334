import Mathlib
import Lox.Config
import Lox.Proofs.Files.Rooted

/-!
# The nearest settings file

Looking for the settings file goes from the starting folder upward until a folder is its own parent,
which is at the root. What is found is said here by the folders on the way alone: which of them have
a settings file, and which of them cannot be looked into.
-/

namespace Lox

/-! ### The way up -/

namespace Path

variable {names : List Text} (hnames : ∀ name ∈ names, IsName name)

include hnames

/-- Going up some steps drops as many names. -/
theorem iterate_parent (n : Nat) :
    parent^[n] (ofParts true names) = ofParts true (names.take (names.length - n)) := by
  induction n with
  | zero => simp
  | succ n ih =>
    rw [Function.iterate_succ_apply', ih]
    by_cases hn : n < names.length
    · -- the names that are left have a last one
      obtain ⟨k, hk⟩ : ∃ k, names.length - n = k + 1 := ⟨names.length - n - 1, by omega⟩
      have hkey : names.length - (n + 1) = k := by omega
      have hlt : k < names.length := by omega
      rw [hk, hkey, List.take_succ_eq_append_getElem hlt]
      exact parent_ofParts (fun name h => hnames name (List.mem_of_mem_take h))
        (hnames _ (List.getElem_mem hlt))
    · have hzero : names.length - n = 0 := by omega
      have hzero' : names.length - (n + 1) = 0 := by omega
      rw [hzero, hzero', List.take_zero, parent_root]

/-- Nothing is above the root, and only there. -/
theorem parent_iterate_eq_iff (n : Nat) :
    parent (parent^[n] (ofParts true names)) = parent^[n] (ofParts true names) ↔
      names.length ≤ n := by
  rw [← Function.iterate_succ_apply' parent, iterate_parent hnames, iterate_parent hnames]
  constructor
  · intro h
    have hmem : ∀ k, ∀ name ∈ names.take k, IsName name :=
      fun k name hname => hnames name (List.mem_of_mem_take hname)
    have hparts := congrArg parts h
    rw [parts_ofParts (hmem _), parts_ofParts (hmem _)] at hparts
    have hlength := congrArg List.length hparts
    simp only [List.length_take] at hlength
    omega
  · intro h
    rw [Nat.sub_eq_zero_of_le h, Nat.sub_eq_zero_of_le (Nat.le_succ_of_le h)]

end Path

namespace Config

/-- The folders from the starting one upward. After the root there are no others. -/
def wayUp (disk : Disk) (start : Text) (n : Nat) : Text := Path.parent^[n] (disk.absolute start)

/-- Where the settings file of a folder is. -/
def placeIn (dir : Text) : Text := Path.join [dir, fileName]

/-- A folder with a settings file: an entry of that name that is no folder. -/
def Offers (disk : Disk) (dir : Text) : Prop :=
  ∃ e, disk.Holds dir fileName e ∧ e.isFolder = false

/-- A folder of which it cannot be said whether it has a settings file: looking at its place fails,
and not because nothing is there. -/
def Obstructs (disk : Disk) (dir : Text) : Prop :=
  ∃ why, disk.lookup (placeIn dir) = .error why ∧ why ≠ .missing

/-- A folder after which the search goes on. -/
def Passes (disk : Disk) (dir : Text) : Prop := ¬ Offers disk dir ∧ ¬ Obstructs disk dir

/-! ### One folder -/

section Folder

variable {disk : Disk} {dir : Text} (hdir : Path.IsRooted dir)

theorem isName_fileName : Path.IsName fileName := by decide

include hdir

/-- A settings file is found unless something obstructs the way to it. -/
theorem lookup_of_offers (h : Offers disk dir) (hclear : ¬ Obstructs disk dir) :
    ∃ content, disk.lookup (placeIn dir) = .ok (.file content) := by
  obtain ⟨e, he, hfile⟩ := h
  cases e with
  | folder es => cases hfile
  | file content =>
    rcases he.lookup hdir isName_fileName (by decide) (by decide) with hfound | hlong
    · exact ⟨content, hfound⟩
    · exact absurd ⟨_, hlong, by simp⟩ hclear

theorem offers_of_lookup {content : Text} (h : disk.lookup (placeIn dir) = .ok (.file content)) :
    Offers disk dir :=
  ⟨_, Disk.holds_of_lookup hdir isName_fileName h, rfl⟩

/-- A folder of the name of the settings file is passed by. -/
theorem passes_of_lookup_folder {es : List (Text × Entry)}
    (h : disk.lookup (placeIn dir) = .ok (.folder es)) : Passes disk dir := by
  have hclear : ¬ Obstructs disk dir := by
    rintro ⟨why, hwhy, -⟩
    rw [h] at hwhy
    cases hwhy
  refine ⟨fun hoffers => ?_, hclear⟩
  obtain ⟨content, hcontent⟩ := lookup_of_offers hdir hoffers hclear
  rw [h] at hcontent
  cases hcontent

/-- So is one without such an entry. -/
theorem passes_of_lookup_missing (h : disk.lookup (placeIn dir) = .error .missing) :
    Passes disk dir := by
  have hclear : ¬ Obstructs disk dir := by
    rintro ⟨why, hwhy, hne⟩
    rw [h] at hwhy
    cases hwhy
    exact hne rfl
  refine ⟨fun hoffers => ?_, hclear⟩
  obtain ⟨content, hcontent⟩ := lookup_of_offers hdir hoffers hclear
  rw [h] at hcontent
  cases hcontent

end Folder

/-! ### All folders on the way -/

/-- How a search through folders ends: with the settings file of the first one that is not passed
by, with a failure there, or with nothing after all of them. -/
inductive Settles (disk : Disk) (dirs : Nat → Text) : Except FindFailure (Option Text) → Prop where
  | found {n : Nat} : (∀ m < n, Passes disk (dirs m)) → Offers disk (dirs n) →
      ¬ Obstructs disk (dirs n) → Settles disk dirs (.ok (some (placeIn (dirs n))))
  | failed {n : Nat} {why : Entry.Absence} : (∀ m < n, Passes disk (dirs m)) →
      disk.lookup (placeIn (dirs n)) = .error why → why ≠ .missing →
      Settles disk dirs (.error ⟨placeIn (dirs n), why⟩)
  | nowhere : (∀ n, Passes disk (dirs n)) → Settles disk dirs (.ok none)

/-- A search that passes the first folder by ends as it does from the next one on. -/
theorem Settles.up {disk : Disk} {dirs : Nat → Text} {r : Except FindFailure (Option Text)}
    (hfirst : Passes disk (dirs 0)) (h : Settles disk (fun n => dirs (n + 1)) r) :
    Settles disk dirs r := by
  have hpass : ∀ {n : Nat}, (∀ m < n, Passes disk (dirs (m + 1))) →
      ∀ m < n + 1, Passes disk (dirs m) := by
    intro n hn m hm
    cases m with
    | zero => exact hfirst
    | succ m => exact hn m (Nat.lt_of_succ_lt_succ hm)
  cases h with
  | found hn hoffers hclear => exact .found (hpass hn) hoffers hclear
  | failed hn hwhy hne => exact .failed (hpass hn) hwhy hne
  | nowhere hall =>
    refine .nowhere fun n => ?_
    cases n with
    | zero => exact hfirst
    | succ n => exact hall n

namespace Settles

variable {disk : Disk} {dirs : Nat → Text} {r : Except FindFailure (Option Text)}

/-- What is found is the settings file of the first folder that has one. -/
theorem eq_some_iff (h : Settles disk dirs r) (p : Text) :
    r = .ok (some p) ↔ ∃ n, Offers disk (dirs n) ∧ (∀ m < n, ¬ Offers disk (dirs m)) ∧
      (∀ m ≤ n, ¬ Obstructs disk (dirs m)) ∧ p = placeIn (dirs n) := by
  constructor
  · rintro rfl
    cases h with
    | @found n hpass hoffers hclear =>
      refine ⟨n, hoffers, fun m hm => (hpass m hm).1, fun m hm => ?_, rfl⟩
      rcases Nat.lt_or_eq_of_le hm with hm | rfl
      · exact (hpass m hm).2
      · exact hclear
  · rintro ⟨n, hoffers, hfirst, hclear, rfl⟩
    cases h with
    | @found k hpass hk =>
      rcases Nat.lt_trichotomy k n with hlt | rfl | hlt
      · exact absurd hk (hfirst k hlt)
      · rfl
      · exact absurd hoffers (hpass n hlt).1
    | @failed k why hpass hwhy hne =>
      rcases Nat.lt_or_ge n k with hlt | hle
      · exact absurd hoffers (hpass n hlt).1
      · exact absurd ⟨why, hwhy, hne⟩ (hclear k hle)
    | nowhere hall => exact absurd hoffers (hall n).1

theorem eq_none_iff (h : Settles disk dirs r) : r = .ok none ↔ ∀ n, Passes disk (dirs n) := by
  constructor
  · rintro rfl
    cases h with
    | nowhere hall => exact hall
  · intro hall
    cases h with
    | found _ hoffers => exact absurd hoffers (hall _).1
    | failed _ hwhy hne => exact absurd ⟨_, hwhy, hne⟩ (hall _).2
    | nowhere _ => rfl

theorem error_iff (h : Settles disk dirs r) : (∃ f, r = .error f) ↔
    ∃ n, Obstructs disk (dirs n) ∧ ∀ m < n, ¬ Offers disk (dirs m) := by
  constructor
  · rintro ⟨f, rfl⟩
    cases h with
    | @failed n why hpass hwhy hne => exact ⟨n, ⟨why, hwhy, hne⟩, fun m hm => (hpass m hm).1⟩
  · rintro ⟨n, hobstructs, hfirst⟩
    cases h with
    | @found k hpass hk hclear =>
      rcases Nat.lt_trichotomy k n with hlt | rfl | hlt
      · exact absurd hk (hfirst k hlt)
      · exact absurd hobstructs hclear
      · exact absurd hobstructs (hpass n hlt).2
    | failed => exact ⟨_, rfl⟩
    | nowhere hall => exact absurd hobstructs (hall n).2

end Settles

/-- One folder is looked at; if it is passed by, the others decide. -/
theorem findIn_cons_settles {disk : Disk} {dir : Text} {rest : List Text} {dirs : Nat → Text}
    (hrooted : Path.IsRooted dir) (hdir : dirs 0 = dir)
    (hrest : Passes disk dir → Settles disk dirs (findIn disk rest)) :
    Settles disk dirs (findIn disk (dir :: rest)) := by
  subst hdir
  have hplace : Path.join [dirs 0, fileName] = placeIn (dirs 0) := rfl
  have hnone : ∀ m < 0, Passes disk (dirs m) := fun m hm => absurd hm (Nat.not_lt_zero m)
  simp only [findIn, hplace]
  cases hlookup : disk.lookup (placeIn (dirs 0)) with
  | ok e =>
    cases e with
    | file content =>
      refine .found hnone (offers_of_lookup hrooted hlookup) ?_
      rintro ⟨why, hwhy, -⟩
      rw [hlookup] at hwhy
      cases hwhy
    | folder es => exact hrest (passes_of_lookup_folder hrooted hlookup)
  | error why =>
    cases why with
    | missing => exact hrest (passes_of_lookup_missing hrooted hlookup)
    | _ => exact .failed hnone hlookup (by simp)

/-- The search through a folder and those above it. -/
theorem findIn_upward_settles (disk : Disk) {names : List Text}
    (hnames : ∀ name ∈ names, Path.IsName name) :
    Settles disk (fun n => Path.parent^[n] (Path.ofParts true names.reverse))
      (findIn disk (upward names)) := by
  -- along the names, the last of which comes first
  induction names with
  | nil =>
    refine findIn_cons_settles ⟨[], List.forall_mem_nil _, rfl⟩ rfl fun hroot => ?_
    refine .nowhere fun n => ?_
    have hfix : Path.parent^[n] (Path.ofParts true []) = Path.ofParts true [] :=
      Function.iterate_fixed Path.parent_root n
    rw [List.reverse_nil, hfix]
    exact hroot
  | cons name above ih =>
    obtain ⟨hname, habove⟩ := List.forall_mem_cons.1 hnames
    have hreverse : ∀ n ∈ above.reverse, Path.IsName n :=
      fun n hn => habove n (List.mem_reverse.1 hn)
    have hup : Path.parent (Path.ofParts true (name :: above).reverse) =
        Path.ofParts true above.reverse := by
      rw [List.reverse_cons, Path.parent_ofParts hreverse hname]
    refine findIn_cons_settles ⟨_, fun n hn => hnames n (List.mem_reverse.1 hn), rfl⟩ rfl
      fun hpass => .up hpass ?_
    simp only [Function.iterate_succ_apply, hup]
    exact ih habove

/-- The starting folder, as the names on the way to it from the root. -/
theorem exists_names_absolute {disk : Disk} (hcwd : Path.isAbsolute disk.cwd = true)
    (start : Text) : ∃ names, (∀ name ∈ names, Path.IsName name) ∧
      disk.absolute start = Path.ofParts true names ∧
      Path.cleanParts (disk.absolute start) = names := by
  obtain ⟨names, hnames, heq⟩ := Path.isRooted_resolve hcwd start
  exact ⟨names, hnames, heq, by rw [Disk.absolute, heq, Path.cleanParts_ofParts hnames]⟩

/-- The search for the settings file ends where the way up does. -/
theorem settles_find {disk : Disk} (hcwd : Path.isAbsolute disk.cwd = true) (start : Text) :
    Settles disk (wayUp disk start) (find disk start) := by
  obtain ⟨names, hnames, habsolute, hparts⟩ := exists_names_absolute hcwd start
  have hreverse : ∀ name ∈ names.reverse, Path.IsName name :=
    fun name hname => hnames name (List.mem_reverse.1 hname)
  have h := findIn_upward_settles disk hreverse
  rw [List.reverse_reverse, ← habsolute, ← hparts] at h
  exact h

/-! ### What is found -/

/-- The search for the settings file. The way up ends: after as many steps as the starting folder
has names, and no fewer, a folder is its own parent, the root. A file is found exactly if a folder
on the way has a settings file and none before it has one, and if up to there nothing obstructs the
way; it is that file. Nothing is found exactly if no folder has one and nothing obstructs the way.
The search fails exactly if something does, before any settings file; the failure says where this
is first so, and why. -/
theorem finds_nearest_settings (disk : Disk) (hcwd : Path.isAbsolute disk.cwd = true)
    (start : Text) :
    (∃ height, wayUp disk start height = [Path.slash] ∧
      ∀ n, Path.parent (wayUp disk start n) = wayUp disk start n ↔ height ≤ n) ∧
    (∀ p, find disk start = .ok (some p) ↔ ∃ n, Offers disk (wayUp disk start n) ∧
      (∀ m < n, ¬ Offers disk (wayUp disk start m)) ∧
      (∀ m ≤ n, ¬ Obstructs disk (wayUp disk start m)) ∧ p = placeIn (wayUp disk start n)) ∧
    (find disk start = .ok none ↔
      ∀ n, ¬ Offers disk (wayUp disk start n) ∧ ¬ Obstructs disk (wayUp disk start n)) ∧
    ((∃ f, find disk start = .error f) ↔ ∃ n, Obstructs disk (wayUp disk start n) ∧
      ∀ m < n, ¬ Offers disk (wayUp disk start m)) ∧
    ∀ f, find disk start = .error f → ∃ n, f.candidate = placeIn (wayUp disk start n) ∧
      disk.lookup f.candidate = .error f.why ∧ f.why ≠ .missing ∧
      ∀ m < n, Passes disk (wayUp disk start m) := by
  have hsettles := settles_find hcwd start
  refine ⟨?_, ?_, ?_, ?_, ?_⟩
  · obtain ⟨names, hnames, habsolute, -⟩ := exists_names_absolute hcwd start
    refine ⟨names.length, ?_, fun n => ?_⟩
    · rw [wayUp, habsolute, Path.iterate_parent hnames, Nat.sub_self]
      rfl
    · rw [wayUp, habsolute]
      exact Path.parent_iterate_eq_iff hnames n
  · exact hsettles.eq_some_iff
  · exact hsettles.eq_none_iff
  · exact hsettles.error_iff
  · intro f hf
    rw [hf] at hsettles
    cases hsettles with
    | failed hpass hwhy hne => exact ⟨_, rfl, hwhy, hne, hpass⟩

/-- From a folder that does not exist, in one in which a folder has the name of the settings file,
to the settings file above both. -/
theorem finds_settings_above :
    let disk : Disk := ⟨.folder [("a", .folder [("b", .folder [("lox.yml", .folder [])]),
      ("lox.yml", .file [])])], "/a"⟩
    let start : Text := ".//b/../b/c"
    Path.isAbsolute disk.cwd = true ∧ find disk start = .ok (some "/a/lox.yml") ∧
      ∃ n, Offers disk (wayUp disk start n) ∧ (∀ m < n, ¬ Offers disk (wayUp disk start m)) ∧
        (∀ m ≤ n, ¬ Obstructs disk (wayUp disk start m)) ∧
        ("/a/lox.yml" : Text) = placeIn (wayUp disk start n) := by
  intro disk start
  have hcwd : Path.isAbsolute disk.cwd = true := by rfl
  have hfind : find disk start = .ok (some "/a/lox.yml") := by rfl
  exact ⟨hcwd, hfind, ((finds_nearest_settings disk hcwd start).2.1 _).1 hfind⟩

end Config

end Lox
