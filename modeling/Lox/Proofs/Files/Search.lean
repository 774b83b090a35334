import Mathlib
import Lox.Files.Search
import Lox.Proofs.Files.Path

/-!
# What a module search finds

A search walks a tree and leaves out what is excluded or ignored, so the files it looks at are said
here in another way: by the tree alone, where a file is at the end of a path and the folders on the
way are what can hide it. The files that fit an import path are those whose last components are the
components of the cleaned import path, and the search lists each of them once.
-/

namespace Lox

namespace Entry

/-- The names in every folder are different, and each of them is a name. -/
inductive IsTree : Entry → Prop where
  | file (content : Text) : IsTree (file content)
  | folder {es : List (Text × Entry)} (distinct : (es.map Prod.fst).Nodup)
      (named : ∀ x ∈ es, Path.IsName x.1) (below : ∀ x ∈ es, IsTree x.2) : IsTree (folder es)

/-- A file below an entry, by its path from there, that a search can see: it is there, it is not
ignored, and no folder between it and the entry is excluded by name or ignored. -/
structure Visible (exclude : List Text) (ignored : List Text → Bool → Bool) (tree : Entry)
    (file : List Text) : Prop where
  below : file ≠ []
  found : ∃ content, tree.content? file = some content
  shown : ignored file false = false
  unhidden : ∀ outer name inner, file = outer ++ name :: inner → inner ≠ [] →
    name ∉ exclude ∧ ignored (outer ++ [name]) true = false

/-! ### Entries of a folder -/

theorem lookup_eq_some_iff {es : List (Text × Entry)} (h : (es.map Prod.fst).Nodup) {name : Text}
    {e : Entry} : es.lookup name = some e ↔ (name, e) ∈ es := by
  induction es with
  | nil => simp
  | cons x es ih =>
    obtain ⟨other, f⟩ := x
    obtain ⟨hnew, hrest⟩ := List.nodup_cons.1 h
    by_cases hname : name = other
    · subst hname
      have hout : (name, e) ∉ es := fun hmem => hnew (List.mem_map.2 ⟨(name, e), hmem, rfl⟩)
      simp [List.lookup, hout, eq_comm]
    · have hne : (name == other) = false := by simpa using hname
      simp [List.lookup, hne, ih hrest, hname]

theorem content?_file_cons (content name : Text) (rest : List Text) :
    (file content).content? (name :: rest) = none := rfl

theorem content?_folder_cons (es : List (Text × Entry)) (name : Text) (rest : List Text) :
    (folder es).content? (name :: rest) = (es.lookup name).bind (·.content? rest) := rfl

theorem content?_nil_iff {e : Entry} : (∃ content, e.content? [] = some content) ↔
    ∃ content, e = file content := by
  cases e <;> simp [content?]

/-! ### Visibility, one folder at a time -/

section Visible

variable {exclude : List Text} {ignored : List Text → Bool → Bool}

theorem not_visible_file {content : Text} {x : List Text} :
    ¬ (file content).Visible exclude ignored x := by
  intro h
  obtain ⟨name, rest, rfl⟩ := List.exists_cons_of_ne_nil h.below
  obtain ⟨found, hfound⟩ := h.found
  rw [content?_file_cons] at hfound
  cases hfound

/-- A file among the entries of a folder is visible if it is not ignored, and one further below if
the entry on the way hides nothing and the file is visible from there. -/
theorem visible_folder_iff {es : List (Text × Entry)} (hes : (es.map Prod.fst).Nodup)
    {x : List Text} : (folder es).Visible exclude ignored x ↔
      ∃ name e, (name, e) ∈ es ∧
        ((x = [name] ∧ (∃ content, e = file content) ∧ ignored [name] false = false) ∨
          (name ∉ exclude ∧ ignored [name] true = false ∧ ∃ rest, x = name :: rest ∧
            e.Visible exclude (fun path => ignored (name :: path)) rest)) := by
  constructor
  · intro h
    obtain ⟨name, rest, rfl⟩ := List.exists_cons_of_ne_nil h.below
    obtain ⟨content, hcontent⟩ := h.found
    rw [content?_folder_cons, Option.bind_eq_some_iff] at hcontent
    obtain ⟨e, he, hcontent⟩ := hcontent
    refine ⟨name, e, (lookup_eq_some_iff hes).1 he, ?_⟩
    by_cases hrest : rest = []
    · subst hrest
      exact .inl ⟨rfl, content?_nil_iff.1 ⟨content, hcontent⟩, h.shown⟩
    · obtain ⟨hexclude, hignored⟩ := h.unhidden [] name rest rfl hrest
      refine .inr ⟨hexclude, hignored, rest, rfl, hrest, ⟨content, hcontent⟩, h.shown, ?_⟩
      intro outer inside inner hsplit hinner
      exact h.unhidden (name :: outer) inside inner (by rw [hsplit, List.cons_append]) hinner
  · rintro ⟨name, e, hmem, ⟨rfl, hfile, hshown⟩ | ⟨hexclude, hignored, rest, rfl, h⟩⟩
    · have he := (lookup_eq_some_iff hes).2 hmem
      refine ⟨by simp, ?_, hshown, ?_⟩
      · simpa [content?_folder_cons, he] using content?_nil_iff.2 hfile
      · intro outer inside inner hsplit hinner
        have hlength := congrArg List.length hsplit
        have hpos := List.length_pos_iff.2 hinner
        simp only [List.length_cons, List.length_nil, List.length_append] at hlength
        omega
    · have he := (lookup_eq_some_iff hes).2 hmem
      refine ⟨by simp, ?_, h.shown, ?_⟩
      · simpa [content?_folder_cons, he] using h.found
      · intro outer inside inner hsplit hinner
        cases outer with
        | nil =>
          obtain ⟨rfl, rfl⟩ := List.cons.inj hsplit
          exact ⟨hexclude, hignored⟩
        | cons first outer =>
          obtain ⟨rfl, hrest⟩ := List.cons.inj hsplit
          exact h.unhidden outer inside inner hrest hinner

/-! ### The walk -/

theorem visibleIn_eq_flatMap (path : List Text) (es : List (Text × Entry)) :
    visibleIn exclude ignored path es =
      es.flatMap fun x => visibleAt exclude ignored (path ++ [x.1]) x.1 x.2 := by
  induction es with
  | nil => rfl
  | cons x es ih => rw [visibleIn, ih, List.flatMap_cons]

/-- What the walk meets at an entry: the entry itself, or what is visible from it. -/
theorem mem_visibleAt {e : Entry} (h : e.IsTree) (path : List Text) (name : Text) (x : List Text) :
    x ∈ visibleAt exclude ignored path name e ↔
      (x = path ∧ (∃ content, e = file content) ∧ ignored path false = false) ∨
      (name ∉ exclude ∧ ignored path true = false ∧ ∃ rest, x = path ++ rest ∧
        e.Visible exclude (fun below => ignored (path ++ below)) rest) := by
  induction h generalizing path name x with
  | file content =>
    rw [visibleAt]
    cases hpath : ignored path false <;> simp [not_visible_file]
  | @folder es distinct named below ih =>
    rw [visibleAt]
    split
    next hhidden =>
      have hno : ¬ (name ∉ exclude ∧ ignored path true = false) := by
        rintro ⟨hexclude, hignored⟩
        rcases hhidden with h | h
        · exact hexclude h
        · rw [hignored] at h
          exact absurd h (by decide)
      simp only [List.not_mem_nil, reduceCtorEq, exists_false, false_and, and_false, false_or,
        false_iff]
      exact fun h => hno ⟨h.1, h.2.1⟩
    next hhidden =>
      obtain ⟨hexclude, hignored⟩ := not_or.1 hhidden
      have hopen : name ∉ exclude ∧ ignored path true = false :=
        ⟨hexclude, Bool.eq_false_of_not_eq_true hignored⟩
      rw [visibleIn_eq_flatMap, List.mem_flatMap]
      simp only [reduceCtorEq, exists_false, false_and, and_false, false_or, hopen.1, hopen.2,
        not_false_eq_true, true_and, visible_folder_iff distinct]
      constructor
      · rintro ⟨⟨inside, e⟩, hmem, hx⟩
        rcases (ih _ hmem _ _ _).1 hx with ⟨rfl, hfile, hshown⟩ | ⟨hout, hseen, rest, rfl, hrest⟩
        · exact ⟨[inside], rfl, inside, e, hmem, .inl ⟨rfl, hfile, hshown⟩⟩
        · refine ⟨inside :: rest, by simp, inside, e, hmem, .inr ⟨hout, hseen, rest, rfl, ?_⟩⟩
          simpa only [List.append_assoc, List.singleton_append] using hrest
      · rintro ⟨_, rfl, inside, e, hmem, ⟨rfl, hfile, hshown⟩ | ⟨hout, hseen, rest, rfl, hrest⟩⟩
        · exact ⟨(inside, e), hmem, (ih _ hmem _ _ _).2 (.inl ⟨rfl, hfile, hshown⟩)⟩
        · refine ⟨(inside, e), hmem,
            (ih _ hmem _ _ _).2 (.inr ⟨hout, hseen, rest, by simp, ?_⟩)⟩
          simpa only [List.append_assoc, List.singleton_append] using hrest

/-- The walk meets exactly the visible files. -/
theorem mem_visibleFiles_iff {tree : Entry} (h : tree.IsTree) {x : List Text} :
    x ∈ tree.visibleFiles exclude ignored ↔ tree.Visible exclude ignored x := by
  cases h with
  | file content => simp [visibleFiles, entries, visibleIn, not_visible_file]
  | @folder es distinct named below =>
    rw [visibleFiles, entries, visibleIn_eq_flatMap, List.mem_flatMap, visible_folder_iff distinct]
    constructor
    · rintro ⟨⟨name, e⟩, hmem, hx⟩
      exact ⟨name, e, hmem, (mem_visibleAt (below _ hmem) _ _ _).1 hx⟩
    · rintro ⟨name, e, hmem, hx⟩
      exact ⟨(name, e), hmem, (mem_visibleAt (below _ hmem) _ _ _).2 hx⟩

/-- All that the walk meets at or below an entry is there or further below. -/
theorem prefix_of_mem_visibleAt {e : Entry} (h : e.IsTree) {path : List Text} {name : Text}
    {x : List Text} (hx : x ∈ visibleAt exclude ignored path name e) : path <+: x := by
  rcases (mem_visibleAt h path name x).1 hx with ⟨rfl, -⟩ | ⟨-, -, rest, rfl, -⟩
  · exact List.prefix_rfl
  · exact List.prefix_append _ _

/-- Entries of different names lead to different files. -/
theorem nodup_visibleIn {es : List (Text × Entry)} (hdistinct : (es.map Prod.fst).Nodup)
    (hbelow : ∀ x ∈ es, x.2.IsTree) (path : List Text)
    (ih : ∀ x ∈ es, (visibleAt exclude ignored (path ++ [x.1]) x.1 x.2).Nodup) :
    (visibleIn exclude ignored path es).Nodup := by
  rw [visibleIn_eq_flatMap, List.nodup_flatMap]
  refine ⟨ih, ?_⟩
  have hnames : es.Pairwise fun x y => x.1 ≠ y.1 := List.pairwise_map.1 hdistinct
  refine hnames.imp_of_mem ?_
  intro x y hx hy hne file hfilex hfiley
  have hpre := prefix_of_mem_visibleAt (hbelow x hx) hfilex
  have hpre' := prefix_of_mem_visibleAt (hbelow y hy) hfiley
  have heq := (List.prefix_of_prefix_length_le hpre hpre' (by simp)).eq_of_length (by simp)
  exact hne (List.cons.inj (List.append_cancel_left heq)).1

theorem nodup_visibleAt {e : Entry} (h : e.IsTree) (path : List Text) (name : Text) :
    (visibleAt exclude ignored path name e).Nodup := by
  induction h generalizing path name with
  | file content =>
    rw [visibleAt]
    split <;> simp
  | folder distinct named below ih =>
    rw [visibleAt]
    split
    · exact List.nodup_nil
    · exact nodup_visibleIn distinct below path fun x hx => ih x hx _ _

theorem nodup_visibleFiles {tree : Entry} (h : tree.IsTree) :
    (tree.visibleFiles exclude ignored).Nodup := by
  cases h with
  | file content => exact List.nodup_nil
  | folder distinct named below =>
    exact nodup_visibleIn distinct below [] fun x hx => nodup_visibleAt (below x hx) _ _

/-- A file in a tree has names all along its path. -/
theorem IsTree.isName {tree : Entry} (h : tree.IsTree) {x : List Text} {content : Text}
    (hx : tree.content? x = some content) : ∀ name ∈ x, Path.IsName name := by
  induction h generalizing x with
  | file text =>
    cases x with
    | nil => exact List.forall_mem_nil _
    | cons name rest =>
      rw [content?_file_cons] at hx
      cases hx
  | folder distinct named below ih =>
    cases x with
    | nil => exact List.forall_mem_nil _
    | cons name rest =>
      rw [content?_folder_cons, Option.bind_eq_some_iff] at hx
      obtain ⟨e, he, hrest⟩ := hx
      have hmem := (lookup_eq_some_iff distinct).1 he
      exact List.forall_mem_cons.2 ⟨named _ hmem, ih _ hmem hrest⟩

end Visible

end Entry

namespace Text

theorem precedes_trans (s t u : Text) (hst : s.precedes t = true) (htu : t.precedes u = true) :
    s.precedes u = true :=
  decide_eq_true (List.le_trans (of_decide_eq_true hst) (of_decide_eq_true htu))

theorem precedes_total (s t : Text) : (s.precedes t || t.precedes s) = true := by
  simpa [precedes] using List.le_total s t

/-- Sorting texts that are all different puts each strictly before the next. -/
theorem pairwise_lt_mergeSort {ts : List Text} (h : ts.Nodup) :
    (ts.mergeSort precedes).Pairwise (· < ·) := by
  have hsorted := List.pairwise_mergeSort precedes_trans precedes_total ts
  have hnodup : (ts.mergeSort precedes).Pairwise (· ≠ ·) :=
    (List.mergeSort_perm ts precedes).nodup_iff.2 h
  refine hsorted.imp₂ ?_ hnodup
  intro s t hst hne
  exact (List.le_iff_lt_or_eq.1 (of_decide_eq_true hst)).resolve_right hne

end Text

namespace ModuleSearch

/-- A file fits an import path if and only if its last components are those of the cleaned path. -/
theorem fits_iff {path : Text} {file : List Text} (hne : file ≠ [])
    (hnames : ∀ name ∈ file, Path.IsName name) :
    fits path file = true ↔ (Path.clean path).splitOn Path.slash <:+ file := by
  have hsplit := @Text.suffix_splitOn_iff Path.slash (Path.clean path)
    (Text.joinWith [Path.slash] file)
  rw [Path.splitOn_joinWith hne hnames] at hsplit
  rw [hsplit, fits, Path.afterPrefix?_clean]
  simp

variable (s : ModuleSearch)

/-- The path of a file below the root: the components of the root and then those of the file. -/
def pathOf (file : List Text) : Text :=
  Path.ofParts (Path.isAbsolute s.root) (Path.cleanParts s.root ++ file)

/-- The paths of the files in a tree at the root that an import path can stand for: those of visible
files that end in the components of the cleaned import path. -/
def Wanted (ignored : List Text → Bool → Bool) (tree : Entry) (path : Text) : Set Text :=
  {p | ∃ file, tree.Visible s.exclude ignored file ∧
    (Path.clean path).splitOn Path.slash <:+ file ∧ p = s.pathOf file}

theorem pathOf_injective {file file' : List Text} (hne : file ≠ []) (hne' : file' ≠ [])
    (hnames : ∀ name ∈ file, Path.IsName name) (hnames' : ∀ name ∈ file', Path.IsName name)
    (h : s.pathOf file = s.pathOf file') : file = file' := by
  have hslash {file : List Text} (hnames : ∀ name ∈ file, Path.IsName name) :
      ∀ part ∈ Path.cleanParts s.root ++ file, Path.slash ∉ part := by
    intro part hpart
    rcases List.mem_append.1 hpart with hpart | hpart
    · exact (Path.mem_cleanParts hpart).2.1
    · exact (hnames part hpart).slash_not_mem
  exact List.append_cancel_left (Path.ofParts_injective (by simp [hne]) (by simp [hne'])
    (hslash hnames) (hslash hnames') h)

section Select

variable {tree : Entry} (htree : tree.IsTree) (ignored : List Text → Bool → Bool) (path : Text)

include htree

theorem mem_select_iff (p : Text) :
    p ∈ select s.exclude ignored s.root tree path ↔ p ∈ s.Wanted ignored tree path := by
  simp only [select, List.mem_mergeSort, List.mem_map, List.mem_filter,
    Entry.mem_visibleFiles_iff htree]
  refine exists_congr fun file => ?_
  constructor
  · rintro ⟨⟨hvisible, hfits⟩, rfl⟩
    obtain ⟨content, hcontent⟩ := hvisible.found
    have hnames := htree.isName hcontent
    exact ⟨hvisible, (fits_iff hvisible.below hnames).1 hfits,
      Path.join_below hvisible.below hnames⟩
  · rintro ⟨hvisible, hsuffix, rfl⟩
    obtain ⟨content, hcontent⟩ := hvisible.found
    have hnames := htree.isName hcontent
    exact ⟨⟨hvisible, (fits_iff hvisible.below hnames).2 hsuffix⟩,
      Path.join_below hvisible.below hnames⟩

theorem pairwise_select : (select s.exclude ignored s.root tree path).Pairwise (· < ·) := by
  refine Text.pairwise_lt_mergeSort
    (List.Nodup.map_on ?_ ((Entry.nodup_visibleFiles htree).filter _))
  intro file hfile file' hfile' heq
  have hvisible := (Entry.mem_visibleFiles_iff htree).1 (List.mem_filter.1 hfile).1
  have hvisible' := (Entry.mem_visibleFiles_iff htree).1 (List.mem_filter.1 hfile').1
  obtain ⟨content, hcontent⟩ := hvisible.found
  obtain ⟨content', hcontent'⟩ := hvisible'.found
  have hnames := htree.isName hcontent
  have hnames' := htree.isName hcontent'
  rw [Path.join_below hvisible.below hnames, Path.join_below hvisible'.below hnames'] at heq
  exact s.pathOf_injective hvisible.below hvisible'.below hnames hnames' heq

end Select

/-! ### Choosing among the files that fit -/

section Choose

variable {files : List Text} (path : Text)

theorem choose_eq_ok_iff {p : Text} : choose path files = .ok p ↔ files = [p] := by
  rcases files with _ | ⟨file, _ | ⟨next, rest⟩⟩ <;> simp [choose]

theorem choose_of_two_le (h : 2 ≤ files.length) :
    choose path files = .error (.ambiguous path files.length) := by
  rcases files with _ | ⟨file, _ | ⟨next, rest⟩⟩
  · simp at h
  · simp at h
  · rfl

/-- A set whose members are listed without repetition has one member if and only if the list has. -/
theorem eq_singleton_iff_of_nodup {wanted : Set Text} (hnodup : files.Nodup)
    (hmem : ∀ p, p ∈ files ↔ p ∈ wanted) {p : Text} : wanted = {p} ↔ files = [p] := by
  constructor
  · rintro rfl
    have hperm : files.Perm [p] := by
      rw [List.perm_ext_iff_of_nodup hnodup (List.nodup_singleton p)]
      simpa using hmem
    exact List.perm_singleton.1 hperm
  · rintro rfl
    ext q
    simpa using (hmem q).symm

theorem ncard_eq_length_of_nodup {wanted : Set Text} (hnodup : files.Nodup)
    (hmem : ∀ p, p ∈ files ↔ p ∈ wanted) : wanted.ncard = files.length := by
  have hset : wanted = files.toFinset := by
    ext p
    simpa using (hmem p).symm
  rw [hset, Set.ncard_coe_finset, List.toFinset_card_of_nodup hnodup]

end Choose

/-- A search lists exactly the visible files that end in the components of the import path, each
once and in byte order. It finds a module if and only if there is one such file, and says otherwise
how many there are. What is ignored may be given by any rule; the rule that the search makes for
itself is one of them. -/
theorem finds_exactly_the_visible (disk : Disk) {tree : Entry}
    (hroot : disk.lookup s.root = .ok tree) (htree : tree.IsTree)
    (ignored : List Text → Bool → Bool) (path : Text) :
    ∃ files, s.candidatesBy ignored disk path = .ok files ∧
      files.Pairwise (· < ·) ∧
      (∀ p, p ∈ files ↔ p ∈ s.Wanted ignored tree path) ∧
      (∀ p, choose path files = .ok p ↔ s.Wanted ignored tree path = {p}) ∧
      (s.Wanted ignored tree path = ∅ → ∃ failure, choose path files = .error failure ∧
        failure.message = "Can't find '" ++ path ++ "'.") ∧
      (2 ≤ (s.Wanted ignored tree path).ncard → ∃ failure, choose path files = .error failure ∧
        failure.message =
          Text.ofNat (s.Wanted ignored tree path).ncard ++ " modules named '" ++ path ++
            "' found.") ∧
      (s.ignoreRule disk = .ok ignored →
        s.candidates disk path = .ok files ∧ s.locate disk path = choose path files) := by
  have hmem := s.mem_select_iff htree ignored path
  have hsorted := s.pairwise_select htree ignored path
  have hnodup : (select s.exclude ignored s.root tree path).Nodup := by
    refine hsorted.imp ?_
    rintro p _ hlt rfl
    exact List.lt_irrefl p hlt
  have hlisted : s.candidatesBy ignored disk path =
      .ok (select s.exclude ignored s.root tree path) := by
    rw [candidatesBy, hroot]
  refine ⟨select s.exclude ignored s.root tree path, hlisted, hsorted, hmem, ?_, ?_, ?_, ?_⟩
  · intro p
    rw [choose_eq_ok_iff, eq_singleton_iff_of_nodup hnodup hmem]
  · intro hnone
    have hnil : select s.exclude ignored s.root tree path = [] := by
      rw [List.eq_nil_iff_forall_not_mem]
      intro p hp
      simpa [hnone] using (hmem p).1 hp
    rw [hnil]
    exact ⟨.notFound path, rfl, rfl⟩
  · rw [ncard_eq_length_of_nodup hnodup hmem]
    intro htwo
    exact ⟨.ambiguous path _, choose_of_two_le path htwo, rfl⟩
  · intro hrule
    have hcandidates : s.candidates disk path =
        .ok (select s.exclude ignored s.root tree path) := by
      rw [candidates, hrule, ← hlisted]
    exact ⟨hcandidates, by rw [locate, hcandidates]⟩

/-- One file of that name is in an excluded folder, one in an ignored one, and one has a name that
only ends in the wanted text. -/
theorem finds_exactly_the_visible_list :
    let s : ModuleSearch := ⟨"/src", [("build" : Text)], true⟩
    let list : List (Text × Entry) := [("list.lox", .file [])]
    let tree : Entry := .folder [("build", .folder list),
      ("lib", .folder [("list.lox", .file []), ("mylist.lox", .file [])]), ("tmp", .folder list)]
    let disk : Disk := ⟨.folder [("src", tree)], "/"⟩
    let ignored : List Text → Bool → Bool := fun path folder => path == ["tmp"] && folder
    disk.lookup s.root = .ok tree ∧ tree.IsTree ∧
      s.Wanted ignored tree "./list.lox" = {("/src/lib/list.lox" : Text)} := by
  intro s list tree disk ignored
  have hlookup : disk.lookup s.root = .ok tree := by rfl
  have htree : tree.IsTree := by
    have hlist : (Entry.folder list).IsTree :=
      .folder (by decide) (by decide) (by simp [list, Entry.IsTree.file])
    have hlib : (Entry.folder [("list.lox", .file []), ("mylist.lox", .file [])]).IsTree :=
      .folder (by decide) (by decide) (by simp [Entry.IsTree.file])
    refine .folder (by decide) (by decide) ?_
    simp [hlist, hlib]
  obtain ⟨files, hfiles, -, -, hchoose, -⟩ :=
    s.finds_exactly_the_visible disk hlookup htree ignored "./list.lox"
  have hone : s.candidatesBy ignored disk "./list.lox" = .ok ["/src/lib/list.lox"] := by
    subst s list tree disk ignored
    cbv
  rw [hone] at hfiles
  cases hfiles
  exact ⟨hlookup, htree, (hchoose _).1 rfl⟩

end ModuleSearch

end Lox
