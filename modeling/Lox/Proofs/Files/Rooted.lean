import Lox.Proofs.Files.Path
import Lox.Files.Entry

/-!
# Clean paths from the root

Cleaning an absolute path leaves names only, so that a clean absolute path is the list of names on
the way from the root. Cleaning it again, seeing it from another folder, going up from it and going
down from it are then all operations on that list.
-/

namespace Lox

namespace Path

/-- A clean path from the root: a slash, and names with single slashes between them. -/
def IsRooted (p : Text) : Prop := ∃ names, (∀ name ∈ names, IsName name) ∧ p = ofParts true names

/-! ### Cleaning absolute paths -/

/-- From the root on, no step up is kept. -/
theorem push_names {done : List Text} {part : Text} (hdone : ∀ name ∈ done, IsName name)
    (hne : part ≠ []) (hslash : slash ∉ part) : ∀ name ∈ push true done part, IsName name := by
  unfold push
  split
  · exact hdone
  next hhere =>
  split
  · cases done with
    | nil => exact hdone
    | cons last rest =>
      obtain ⟨hlast, hrest⟩ := List.forall_mem_cons.1 hdone
      simpa [hlast.ne_up] using hrest
  next hup =>
  exact List.forall_mem_cons.2 ⟨⟨hne, hslash, hhere, hup⟩, hdone⟩

theorem isName_of_mem_cleanParts {p name : Text} (h : isAbsolute p = true)
    (hname : name ∈ cleanParts p) : IsName name := by
  rw [cleanParts, h, List.mem_reverse] at hname
  refine List.foldlRecOn (motive := fun done => ∀ q ∈ done, IsName q) (parts p) (push true)
    (List.forall_mem_nil _) ?_ name hname
  intro done hdone part hpart
  exact push_names hdone (mem_parts hpart).1 (mem_parts hpart).2

theorem isRooted_clean {p : Text} (h : isAbsolute p = true) : IsRooted (clean p) :=
  ⟨cleanParts p, fun _ hname => isName_of_mem_cleanParts h hname, by rw [clean, h]⟩

theorem isAbsolute_append {p : Text} (h : isAbsolute p = true) (q : Text) :
    isAbsolute (p ++ q) = true := by
  cases p with
  | nil => cases h
  | cons b p => exact h

theorem ne_nil_of_isAbsolute {p : Text} (h : isAbsolute p = true) : p ≠ [] := by
  rintro rfl
  cases h

/-- Whatever is put below an absolute path. -/
theorem isRooted_join {dir : Text} (h : isAbsolute dir = true) (rest : List Text) :
    IsRooted (join (dir :: rest)) := by
  rw [join, List.filter_cons_of_pos (by simpa using ne_nil_of_isAbsolute h)]
  refine isRooted_clean ?_
  cases rest.filter (· ≠ []) with
  | nil => exact h
  | cons q rest =>
    rw [Text.joinWith_cons_cons, List.append_assoc]
    exact isAbsolute_append h _

/-- Whatever is seen from an absolute path. -/
theorem isRooted_resolve {dir : Text} (h : isAbsolute dir = true) (p : Text) :
    IsRooted (resolve dir p) := by
  unfold resolve
  split
  · next hp => exact isRooted_clean hp
  · exact isRooted_join h [p]

/-! ### Paths along names -/

section Names

variable {names : List Text} (hnames : ∀ name ∈ names, IsName name)

include hnames

theorem parts_ofParts : parts (ofParts true names) = names := by
  have hparts : parts (ofParts true names) = parts (Text.joinWith [slash] names) :=
    parts_append_slash [] (Text.joinWith [slash] names)
  rw [hparts]
  by_cases hne : names = []
  · subst hne
    rfl
  · exact parts_joinWith hne hnames

theorem cleanParts_ofParts : cleanParts (ofParts true names) = names := by
  rw [cleanParts, parts_ofParts hnames, foldl_push_names hnames]
  simp

theorem clean_ofParts : clean (ofParts true names) = ofParts true names := by
  rw [clean, cleanParts_ofParts hnames]
  rfl

end Names

namespace IsRooted

variable {p : Text}

theorem isAbsolute (h : IsRooted p) : isAbsolute p = true := by
  obtain ⟨names, -, rfl⟩ := h
  rfl

theorem clean_eq (h : IsRooted p) : clean p = p := by
  obtain ⟨names, hnames, rfl⟩ := h
  exact clean_ofParts hnames

/-- Seen from anywhere, such a path is what it is. -/
theorem resolve_eq (h : IsRooted p) (dir : Text) : resolve dir p = p := by
  rw [resolve, if_pos h.isAbsolute, h.clean_eq]

end IsRooted

/-! ### Up and down -/

theorem dropRightWhile_append_slash {name : Text} (h : slash ∉ name) (t : Text) :
    Text.dropRightWhile (· ≠ slash) (t ++ slash :: name) = t ++ [slash] := by
  have hall : ∀ b ∈ name.reverse, decide (b ≠ slash) = true := by
    intro b hb
    refine decide_eq_true ?_
    rintro rfl
    exact h (List.mem_reverse.1 hb)
  rw [Text.dropRightWhile, List.reverse_append, List.reverse_cons, List.append_assoc,
    List.dropWhile_append_of_pos hall]
  simp

/-- A path along names, with one more of them. Only at the root there is a slash already. -/
theorem ofParts_concat (names : List Text) (name : Text) :
    ∃ t, ofParts true (names ++ [name]) = t ++ slash :: name ∧
      (ofParts true names = t ∨ ofParts true names = t ++ [slash]) := by
  cases names with
  | nil => exact ⟨[], rfl, .inr rfl⟩
  | cons first names =>
    refine ⟨ofParts true (first :: names), ?_, .inl rfl⟩
    rw [ofParts, if_pos rfl, Text.joinWith_append (List.cons_ne_nil first names) (by simp)]
    rfl

theorem ofParts_prefix_concat (names : List Text) (name : Text) :
    ofParts true names <+: ofParts true (names ++ [name]) := by
  obtain ⟨t, ht, heq | heq⟩ := ofParts_concat names name
  · exact ⟨slash :: name, by rw [ht, heq]⟩
  · exact ⟨name, by rw [ht, heq, List.append_assoc, List.singleton_append]⟩

theorem mem_of_mem_ofParts_concat {names : List Text} {name : Text} {b : UInt8}
    (h : b ∈ ofParts true (names ++ [name])) : b ∈ ofParts true names ∨ b ∈ name := by
  obtain ⟨t, ht, heq⟩ := ofParts_concat names name
  have hslash : slash ∈ ofParts true names := List.mem_cons_self
  have ht' : b ∈ t → b ∈ ofParts true names := by
    rcases heq with heq | heq <;> rw [heq]
    · exact id
    · exact List.mem_append_left _
  rw [ht, List.mem_append, List.mem_cons] at h
  rcases h with h | rfl | h
  · exact .inl (ht' h)
  · exact .inl hslash
  · exact .inr h

theorem clean_append_slash {p : Text} (h : p ≠ []) : clean (p ++ [slash]) = clean p := by
  have hparts : parts (p ++ [slash]) = parts p := by
    rw [parts_append_slash]
    exact List.append_nil _
  obtain ⟨b, p, rfl⟩ := List.exists_cons_of_ne_nil h
  rw [clean, cleanParts, hparts]
  rfl

section Up

variable {names : List Text} {name : Text} (hnames : ∀ name ∈ names, IsName name)
  (hname : IsName name)

include hnames hname

/-- Going up drops the last name. -/
theorem parent_ofParts : parent (ofParts true (names ++ [name])) = ofParts true names := by
  -- the slash in front of the name goes with it, unless it is the root
  obtain ⟨t, ht, heq | heq⟩ := ofParts_concat names name
  · have hne : t ≠ [] := heq ▸ List.cons_ne_nil _ _
    rw [ht, parent, dropRightWhile_append_slash hname.slash_not_mem, clean_append_slash hne, ← heq,
      clean_ofParts hnames]
  · rw [ht, parent, dropRightWhile_append_slash hname.slash_not_mem, ← heq, clean_ofParts hnames]

/-- Going down adds a name. -/
theorem join_ofParts : join [ofParts true names, name] = ofParts true (names ++ [name]) := by
  have hbelow := @join_below (ofParts true names) [name] (List.cons_ne_nil name [])
    (List.forall_mem_singleton.2 hname)
  rw [cleanParts_ofParts hnames] at hbelow
  exact hbelow

end Up

/-- The root is its own parent. -/
theorem parent_root : parent (ofParts true []) = ofParts true [] := rfl

theorem IsRooted.parent {p : Text} (h : IsRooted p) : IsRooted (parent p) := by
  obtain ⟨names, hnames, rfl⟩ := h
  rcases List.eq_nil_or_concat names with rfl | ⟨above, name, rfl⟩
  · exact ⟨[], hnames, parent_root⟩
  · rw [List.concat_eq_append] at hnames ⊢
    obtain ⟨habove, hname⟩ := List.forall_mem_append.1 hnames
    exact ⟨above, habove, parent_ofParts habove (List.forall_mem_singleton.1 hname)⟩

end Path

/-! ### Following a path along names -/

namespace Entry

/-- What stands in an entry under a name, or why nothing does. -/
def enter (name : Text) : Entry → Except Absence Entry
  | file _ => .error .notFolder
  | folder es =>
    if nameLimit < name.length then .error .tooLong
    else match es.lookup name with
      | none => .error .missing
      | some e => .ok e

theorem enter_eq_ok_iff {name : Text} {here e : Entry} :
    here.enter name = .ok e ↔
      name.length ≤ nameLimit ∧ ∃ es, here = folder es ∧ es.lookup name = some e := by
  cases here with
  | file content => simp [enter]
  | folder es =>
    simp only [enter, folder.injEq, exists_eq_left']
    split
    next hlong => simp [Nat.not_le.2 hlong]
    next hshort =>
      cases es.lookup name <;> simp [Nat.le_of_not_lt hshort]

/-- The last of some names is looked up where the others lead. -/
theorem follow_concat {names : List Text} {name : Text} (hnames : ∀ name ∈ names, Path.IsName name)
    (hname : Path.IsName name) (above : List Entry) (here : Entry) :
    follow above here (names ++ [name]) = follow above here names >>= enter name := by
  induction names generalizing above here with
  | nil =>
    cases here with
    | file content => rfl
    | folder es =>
      by_cases hlong : nameLimit < name.length
      · simp [follow, enter, hname.ne_nil, hname.ne_here, hname.ne_up, hlong, bind, Except.bind]
      · cases hfound : es.lookup name <;> simp [follow, enter, hname.ne_nil, hname.ne_here,
          hname.ne_up, hlong, hfound, bind, Except.bind]
  | cons first names ih =>
    obtain ⟨hfirst, hnames⟩ := List.forall_mem_cons.1 hnames
    cases here with
    | file content => rfl
    | folder es =>
      simp only [List.cons_append, follow, hfirst.ne_nil, hfirst.ne_here, hfirst.ne_up, or_self,
        if_false]
      split
      · rfl
      · cases es.lookup first with
        | none => rfl
        | some e => exact ih hnames _ _

end Entry

namespace Disk

/-- The entry at the end of a path along names, with no regard to what a path can be. -/
def along (disk : Disk) (names : List Text) : Except Entry.Absence Entry :=
  Entry.follow [] disk.root ([] :: names)

/-- A path along names is followed name by name, if it is a path at all. -/
theorem lookup_ofParts (disk : Disk) {names : List Text}
    (hnames : ∀ name ∈ names, Path.IsName name) :
    disk.lookup (Path.ofParts true names) =
      if (Path.ofParts true names).contains 0 then .error .notPath
      else if pathLimit ≤ (Path.ofParts true names).length then .error .tooLong
      else disk.along names := by
  have hsplit : Entry.follow [] disk.root ((Path.ofParts true names).splitOn Path.slash) =
      disk.along names := by
    have hcut : (Path.ofParts true names).splitOn Path.slash =
        [] :: (Text.joinWith [Path.slash] names).splitOn Path.slash :=
      Text.splitOn_append_sep [] (Text.joinWith [Path.slash] names)
    rw [hcut]
    by_cases hne : names = []
    · -- the root is followed along one empty name more
      subst hne
      cases hroot : disk.root <;> simp [along, hroot, Text.joinWith, Text.splitOn, Entry.follow]
    · rw [Path.splitOn_joinWith hne hnames]
      rfl
  have hne : Path.ofParts true names ≠ [] := List.cons_ne_nil _ _
  rw [lookup, if_neg hne, fromRoot, if_pos (show Path.isAbsolute (Path.ofParts true names) = true
    from rfl), hsplit]

theorem along_concat (disk : Disk) {names : List Text} {name : Text}
    (hnames : ∀ name ∈ names, Path.IsName name) (hname : Path.IsName name) :
    disk.along (names ++ [name]) = disk.along names >>= Entry.enter name := by
  unfold along
  cases hroot : disk.root with
  | file content => rfl
  | folder es => simpa [Entry.follow] using Entry.follow_concat hnames hname [] (.folder es)

/-- A folder on a disk that has an entry of a given name. -/
def Holds (disk : Disk) (dir name : Text) (e : Entry) : Prop :=
  ∃ es, disk.lookup dir = .ok (.folder es) ∧ es.lookup name = some e

/-- A path along names is found where it leads, if it can be a path. -/
theorem lookup_ofParts_eq_ok_iff {disk : Disk} {names : List Text} {e : Entry}
    (hnames : ∀ name ∈ names, Path.IsName name) :
    disk.lookup (Path.ofParts true names) = .ok e ↔
      0 ∉ Path.ofParts true names ∧ (Path.ofParts true names).length < pathLimit ∧
        disk.along names = .ok e := by
  rw [lookup_ofParts disk hnames]
  split
  next hzero => simp_all
  next hzero =>
  split
  next hlong => simp [Nat.not_lt.2 hlong]
  next hlong => simp_all

theorem along_concat_eq_ok_iff {disk : Disk} {names : List Text} {name : Text} {e : Entry}
    (hnames : ∀ name ∈ names, Path.IsName name) (hname : Path.IsName name) :
    disk.along (names ++ [name]) = .ok e ↔ name.length ≤ Entry.nameLimit ∧
      ∃ es, disk.along names = .ok (.folder es) ∧ es.lookup name = some e := by
  rw [along_concat disk hnames hname]
  cases disk.along names with
  | error why => simp [bind, Except.bind]
  | ok here => simp [bind, Except.bind, Entry.enter_eq_ok_iff]

section Holds

variable {disk : Disk} {dir name : Text} {e : Entry} (hdir : Path.IsRooted dir)
  (hname : Path.IsName name)

include hdir hname

/-- What is found below a folder is an entry of the folder. -/
theorem holds_of_lookup (h : disk.lookup (Path.join [dir, name]) = .ok e) :
    disk.Holds dir name e := by
  obtain ⟨names, hnames, rfl⟩ := hdir
  have hall : ∀ other ∈ names ++ [name], Path.IsName other :=
    List.forall_mem_append.2 ⟨hnames, List.forall_mem_singleton.2 hname⟩
  rw [Path.join_ofParts hnames hname, lookup_ofParts_eq_ok_iff hall,
    along_concat_eq_ok_iff hnames hname] at h
  obtain ⟨hzero, hlength, -, es, hes, he⟩ := h
  have hstart := Path.ofParts_prefix_concat names name
  refine ⟨es, ?_, he⟩
  rw [lookup_ofParts_eq_ok_iff hnames]
  exact ⟨fun h => hzero (hstart.mem h), Nat.lt_of_le_of_lt hstart.length_le hlength, hes⟩

/-- An entry of a folder is found below it, unless the whole path is too long. -/
theorem Holds.lookup (h : disk.Holds dir name e) (hshort : name.length ≤ Entry.nameLimit)
    (hzero : 0 ∉ name) : disk.lookup (Path.join [dir, name]) = .ok e ∨
      disk.lookup (Path.join [dir, name]) = .error .tooLong := by
  obtain ⟨names, hnames, rfl⟩ := hdir
  obtain ⟨es, hes, he⟩ := h
  have hall : ∀ other ∈ names ++ [name], Path.IsName other :=
    List.forall_mem_append.2 ⟨hnames, List.forall_mem_singleton.2 hname⟩
  obtain ⟨hzero', -, hes⟩ := (lookup_ofParts_eq_ok_iff hnames).1 hes
  have hnone : 0 ∉ Path.ofParts true (names ++ [name]) := fun h =>
    (Path.mem_of_mem_ofParts_concat h).elim hzero' hzero
  rw [Path.join_ofParts hnames hname]
  by_cases hlong : pathLimit ≤ (Path.ofParts true (names ++ [name])).length
  · right
    rw [lookup_ofParts disk hall, if_neg (by simpa using hnone), if_pos hlong]
  · left
    rw [lookup_ofParts_eq_ok_iff hall, along_concat_eq_ok_iff hnames hname]
    exact ⟨hnone, Nat.lt_of_not_le hlong, hshort, es, hes, he⟩

end Holds

end Disk

end Lox
