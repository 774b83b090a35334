import Lox.Path

/-!
# Paths as lists of components

A path text and the list of its components determine each other, so that a comparison of texts at a
slash is a comparison of lists. Cleaning leaves only components that are worth writing down, and a
path put below another is cleaned to the components of both.
-/

namespace Lox

namespace Text

variable {sep : UInt8}

theorem splitOn_eq (t : Text) : Text.splitOn sep t = List.splitOn sep t := by
  induction t with
  | nil => rfl
  | cons b t ih =>
    rw [splitOn, List.splitOn_cons_eq_if_modifyHead, ih]
    by_cases hb : b = sep
    · simp [hb]
    · obtain ⟨part, parts, hparts⟩ := List.exists_cons_of_ne_nil (List.splitOn_ne_nil sep t)
      simp [hb, hparts]

theorem joinWith_eq (sep : Text) (parts : List Text) :
    joinWith sep parts = sep.intercalate parts := by
  induction parts with
  | nil => rfl
  | cons t parts ih =>
    cases parts with
    | nil => simp [joinWith]
    | cons u parts =>
      rw [joinWith_cons_cons, ih, List.intercalate_cons_cons]

theorem joinWith_append {l m : List Text} (hl : l ≠ []) (hm : m ≠ []) :
    joinWith [sep] (l ++ m) = joinWith [sep] l ++ sep :: joinWith [sep] m := by
  induction l with
  | nil => exact absurd rfl hl
  | cons t l ih =>
    cases l with
    | nil =>
      obtain ⟨u, m, rfl⟩ := List.exists_cons_of_ne_nil hm
      simp [joinWith]
    | cons u l =>
      have htail := ih (List.cons_ne_nil u l)
      rw [List.cons_append] at htail
      rw [List.cons_append, List.cons_append, joinWith_cons_cons, htail, joinWith_cons_cons]
      simp

@[simp]
theorem joinWith_splitOn (t : Text) : joinWith [sep] (Text.splitOn sep t) = t := by
  rw [joinWith_eq, splitOn_eq, List.intercalate_splitOn]

theorem splitOn_append_sep (t u : Text) :
    Text.splitOn sep (t ++ sep :: u) = Text.splitOn sep t ++ Text.splitOn sep u := by
  simp only [splitOn_eq, List.splitOn_append_cons_self]

theorem sep_not_mem_of_mem_splitOn {t part : Text} (h : part ∈ Text.splitOn sep t) :
    sep ∉ part := by
  induction t generalizing part with
  | nil => simp_all [splitOn]
  | cons b t ih =>
    obtain ⟨first, parts, hparts⟩ := List.exists_cons_of_ne_nil (splitOn_ne_nil sep t)
    rw [hparts] at ih
    rw [splitOn, hparts] at h
    by_cases hb : b = sep
    · rw [if_pos hb] at h
      rcases List.mem_cons.1 h with rfl | h
      · exact List.not_mem_nil
      · exact ih h
    · rw [if_neg hb] at h
      rcases List.mem_cons.1 h with rfl | h
      · simpa [Ne.symm hb] using ih List.mem_cons_self
      · exact ih (List.mem_cons_of_mem _ h)

theorem splitOn_joinWith {parts : List Text} (hne : parts ≠ []) (h : ∀ part ∈ parts, sep ∉ part) :
    Text.splitOn sep (joinWith [sep] parts) = parts := by
  rw [joinWith_eq, splitOn_eq, List.splitOn_intercalate sep h hne]

/-- A text ends in another one, right after a separator or at its own start, if and only if its
components end in those of the other. -/
theorem suffix_splitOn_iff {t u : Text} :
    Text.splitOn sep t <:+ Text.splitOn sep u ↔ u = t ∨ sep :: t <:+ u := by
  constructor
  · rintro ⟨front, hfront⟩
    have hu : u = joinWith [sep] (front ++ Text.splitOn sep t) := by
      rw [hfront, joinWith_splitOn]
    by_cases hnil : front = []
    · left
      rw [hu, hnil, List.nil_append, joinWith_splitOn]
    · right
      rw [hu, joinWith_append hnil (splitOn_ne_nil sep t), joinWith_splitOn]
      exact List.suffix_append _ _
  · rintro (rfl | ⟨front, rfl⟩)
    · exact List.suffix_rfl
    · rw [splitOn_append_sep]
      exact List.suffix_append _ _

end Text

namespace Path

/-- What a file or folder can be called: something without a slash that leads neither nowhere nor
up. -/
structure IsName (name : Text) : Prop where
  ne_nil : name ≠ []
  slash_not_mem : slash ∉ name
  ne_here : name ≠ ("." : Text)
  ne_up : name ≠ (".." : Text)

theorem isName_iff {name : Text} : IsName name ↔
    name ≠ [] ∧ slash ∉ name ∧ name ≠ ("." : Text) ∧ name ≠ (".." : Text) :=
  ⟨fun h => ⟨h.1, h.2, h.3, h.4⟩, fun h => ⟨h.1, h.2.1, h.2.2.1, h.2.2.2⟩⟩

instance (name : Text) : Decidable (IsName name) := decidable_of_iff _ isName_iff.symm

/-! ### Components that cleaning leaves -/

/-- What a component of a cleaned path is: not empty, without a slash, and not a single dot. -/
def IsKept (part : Text) : Prop := part ≠ [] ∧ slash ∉ part ∧ part ≠ ("." : Text)

theorem push_kept {absolute : Bool} {done : List Text} {part : Text}
    (hdone : ∀ p ∈ done, IsKept p) (hne : part ≠ []) (hslash : slash ∉ part) :
    ∀ p ∈ push absolute done part, IsKept p := by
  have hcons (hdot : part ≠ ("." : Text)) : ∀ p ∈ part :: done, IsKept p :=
    List.forall_mem_cons.2 ⟨⟨hne, hslash, hdot⟩, hdone⟩
  unfold push
  split
  · exact hdone
  next hdot =>
  split
  · cases done with
    | nil =>
      cases absolute
      · exact hcons hdot
      · exact hdone
    | cons last rest =>
      dsimp only
      split
      · exact hcons hdot
      · exact (List.forall_mem_cons.1 hdone).2
  · exact hcons hdot

theorem mem_parts {p part : Text} (h : part ∈ parts p) : part ≠ [] ∧ slash ∉ part := by
  obtain ⟨hmem, hne⟩ := List.mem_filter.1 h
  exact ⟨of_decide_eq_true hne, Text.sep_not_mem_of_mem_splitOn hmem⟩

theorem mem_cleanParts {p part : Text} (h : part ∈ cleanParts p) : IsKept part := by
  refine List.foldlRecOn (motive := fun done => ∀ q ∈ done, IsKept q) (parts p)
    (push (isAbsolute p)) (List.forall_mem_nil _) ?_ part (List.mem_reverse.1 h)
  intro done hdone part hpart
  exact push_kept hdone (mem_parts hpart).1 (mem_parts hpart).2

/-- A cleaned path does not start with the folder it is seen from. -/
theorem afterPrefix?_clean (p : Text) : Text.afterPrefix? "./" (clean p) = none := by
  rw [Option.eq_none_iff_forall_ne_some]
  intro rest h
  have hdots : Text.ofString "./" = ("." : Text) ++ [slash] := by decide
  have hclean : clean p = ("." : Text) ++ slash :: rest := by
    rw [Text.afterPrefix?_eq_some_iff.1 h, hdots, List.append_assoc, List.singleton_append]
  unfold clean ofParts at hclean
  split at hclean
  · have hhead : some slash = some (Text.byte '.') := congrArg List.head? hclean
    exact absurd hhead (by decide)
  split at hclean
  · have hlength := congrArg List.length hclean
    simp [show (("." : Text)).length = 1 by decide] at hlength
  next hne =>
  have hsplit := congrArg (Text.splitOn slash) hclean
  rw [Text.splitOn_joinWith hne fun part hpart => (mem_cleanParts hpart).2.1,
    Text.splitOn_append_sep] at hsplit
  have hdot : ("." : Text) ∈ cleanParts p := by
    rw [hsplit]
    exact List.mem_append_left _ (by decide)
  exact (mem_cleanParts hdot).2.2 rfl

/-! ### Paths below others -/

section Below

variable {root : Text} {file : List Text} (hne : file ≠ []) (hnames : ∀ name ∈ file, IsName name)

include hnames in
theorem foldl_push_names (absolute : Bool) (done : List Text) :
    file.foldl (push absolute) done = file.reverse ++ done := by
  induction file generalizing done with
  | nil => rfl
  | cons name file ih =>
    obtain ⟨hname, hnames⟩ := List.forall_mem_cons.1 hnames
    have hpush : push absolute done name = name :: done := by
      simp [push, hname.ne_here, hname.ne_up]
    rw [List.foldl_cons, hpush, ih hnames]
    simp

include hne hnames in
theorem splitOn_joinWith : Text.splitOn slash (Text.joinWith [slash] file) = file :=
  Text.splitOn_joinWith hne fun name hname => (hnames name hname).slash_not_mem

include hne hnames in
theorem parts_joinWith : parts (Text.joinWith [slash] file) = file := by
  rw [parts, splitOn_joinWith hne hnames, List.filter_eq_self]
  exact fun name hname => decide_eq_true (hnames name hname).ne_nil

theorem parts_append_slash (p q : Text) : parts (p ++ slash :: q) = parts p ++ parts q := by
  rw [parts, Text.splitOn_append_sep, List.filter_append, parts, parts]

include hne hnames in
theorem isAbsolute_joinWith : isAbsolute (Text.joinWith [slash] file) = false := by
  obtain ⟨name, rest, rfl⟩ := List.exists_cons_of_ne_nil hne
  have hname := hnames name List.mem_cons_self
  obtain ⟨b, name, rfl⟩ := List.exists_cons_of_ne_nil hname.ne_nil
  have hb : b ≠ slash := fun h => hname.slash_not_mem (h ▸ List.mem_cons_self)
  cases rest <;> simp [isAbsolute, Text.joinWith, hb]

include hne hnames in
theorem joinWith_ne_nil : Text.joinWith [slash] file ≠ [] := by
  intro h
  have hparts := parts_joinWith hne hnames
  rw [h] at hparts
  exact hne hparts.symm

include hne hnames in
/-- A path made of names, put below another one, has the components of both. -/
theorem join_below : join [root, Text.joinWith [slash] file] =
    ofParts (isAbsolute root) (cleanParts root ++ file) := by
  by_cases hroot : root = []
  · subst hroot
    rw [join, List.filter_cons_of_neg (by simp),
      List.filter_cons_of_pos (by simpa using joinWith_ne_nil hne hnames)]
    change clean (Text.joinWith [slash] file) = _
    rw [clean, cleanParts, isAbsolute_joinWith hne hnames, parts_joinWith hne hnames,
      foldl_push_names hnames]
    simp [isAbsolute, cleanParts, parts, Text.splitOn]
  · rw [join, List.filter_cons_of_pos (by simpa using hroot),
      List.filter_cons_of_pos (by simpa using joinWith_ne_nil hne hnames)]
    have habsolute :
        isAbsolute (root ++ slash :: Text.joinWith [slash] file) = isAbsolute root := by
      obtain ⟨b, root, rfl⟩ := List.exists_cons_of_ne_nil hroot
      rfl
    change clean (root ++ [slash] ++ Text.joinWith [slash] file) = _
    rw [List.append_assoc, List.singleton_append, clean, habsolute, cleanParts, habsolute,
      parts_append_slash, parts_joinWith hne hnames, List.foldl_append, foldl_push_names hnames,
      List.reverse_append, List.reverse_reverse, cleanParts]

end Below

/-- Different components make different paths. -/
theorem ofParts_injective {absolute : Bool} {l m : List Text} (hl : l ≠ []) (hm : m ≠ [])
    (hlparts : ∀ part ∈ l, slash ∉ part) (hmparts : ∀ part ∈ m, slash ∉ part)
    (h : ofParts absolute l = ofParts absolute m) : l = m := by
  have hjoin : Text.joinWith [slash] l = Text.joinWith [slash] m := by
    cases absolute with
    | true => exact List.tail_eq_of_cons_eq h
    | false => simpa [ofParts, hl, hm] using h
  rw [← Text.splitOn_joinWith hl hlparts, hjoin, Text.splitOn_joinWith hm hmparts]

end Path

end Lox
