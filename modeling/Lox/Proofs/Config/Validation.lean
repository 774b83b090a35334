import Mathlib
import Lox.Config
import Lox.Proofs.Files.Rooted

/-!
# Usable configurations

A settings file that can be read either makes a configuration with which the program can work, or is
refused with everything that is wrong with it. Both are said of one configuration, which follows the
settings field by field.
-/

namespace Lox.Config

/-! ### Fields and their settings -/

/-- The value of a field: what its setting means, if it counts, and the default otherwise. -/
inductive Takes {α β : Type} (counts : α → Prop) (means : α → β → Prop) (otherwise : β) :
    Option α → β → Prop where
  | given {a : α} {b : β} : counts a → means a b → Takes counts means otherwise (some a) b
  | absent {setting : Option α} : (∀ a ∈ setting, ¬ counts a) →
      Takes counts means otherwise setting otherwise

/-- What comes after a `~` that stands for the home folder. -/
def AtHome (rest : Text) : Prop := rest = [] ∨ rest.head? = some Path.slash

/-- The place that a path in a settings file stands for: below the home folder after a `~` that is
a component of its own, itself if it starts at the root, and else below the folder of the file. -/
inductive Denotes (home dir : Text) : Text → Text → Prop where
  | home {rest : Text} : AtHome rest → Denotes home dir ("~" ++ rest) (Path.join [home, rest])
  | root {p : Text} : Path.isAbsolute p = true → Denotes home dir p (Path.clean p)
  | below {p : Text} : Path.isAbsolute p = false → (∀ rest, AtHome rest → p ≠ "~" ++ rest) →
      Denotes home dir p (Path.join [dir, p])

/-- A configuration that follows settings from a file in the folder `dir`. Each field depends on the
setting for it alone. An empty text says nothing, except for the prompt. -/
structure Follows (home dir : Text) (s : Settings) (c : Config) : Prop where
  moduleRoot : Takes (· ≠ []) (Denotes home dir) (default (some home) dir).moduleRoot
    s.moduleRoot c.moduleRoot
  exclude : Takes (fun _ => True) (· = ·) (default (some home) dir).exclude s.exclude c.exclude
  respectIgnores : Takes (fun _ => True) (· = ·) (default (some home) dir).respectIgnores
    s.respectIgnores c.respectIgnores
  maxCallDepth : Takes (fun _ => True) (· = ·) (default (some home) dir).maxCallDepth
    s.maxCallDepth c.maxCallDepth
  logLevel : Takes (· ≠ []) (· = ·) (default (some home) dir).logLevel s.logLevel c.logLevel
  historyFile : Takes (· ≠ []) (Denotes home dir) (default (some home) dir).historyFile
    s.historyFile c.historyFile
  prompt : Takes (fun _ => True) (· = ·) (default (some home) dir).prompt s.prompt c.prompt

theorem takes_getD {α : Type} (otherwise : α) (setting : Option α) :
    Takes (fun _ => True) (· = ·) otherwise setting (setting.getD otherwise) := by
  cases setting with
  | none => exact .absent (by simp)
  | some a => exact .given trivial rfl

/-- A setting that counts only if it is not empty, and means what `f` makes of it. -/
theorem takes_nonEmpty {β : Type} {means : Text → β → Prop} {f : Text → β}
    (hf : ∀ t, means t (f t)) (otherwise : β) (setting : Option Text) :
    Takes (· ≠ []) means otherwise setting (((nonEmpty setting).map f).getD otherwise) := by
  cases setting with
  | none => exact .absent (by simp)
  | some t =>
    by_cases ht : t = []
    · subst ht
      exact .absent (by simp)
    · have hkept : nonEmpty (some t) = some t := by simp [nonEmpty, ht]
      rw [hkept]
      exact .given ht (hf t)

/-- Away from the home folder, paths are seen from the folder of the file. -/
theorem resolve_denotes (home : Text) {dir p : Text}
    (h : ∀ rest, AtHome rest → p ≠ "~" ++ rest) : Denotes home dir p (Path.resolve dir p) := by
  unfold Path.resolve
  split
  next habsolute => exact .root habsolute
  next hrelative => exact .below (by simpa using hrelative) h

theorem resolvePath_denotes (home dir p : Text) :
    Denotes home dir p (resolvePath (some home) dir p) := by
  unfold resolvePath
  cases hafter : Text.afterPrefix? "~" p with
  | none =>
    refine resolve_denotes home ?_
    rintro rest - rfl
    rw [Text.afterPrefix?_eq_some_iff.2 rfl] at hafter
    cases hafter
  | some rest =>
    obtain rfl := Text.afterPrefix?_eq_some_iff.1 hafter
    dsimp only
    split
    next hrest => exact .home hrest
    next hrest =>
      refine resolve_denotes home fun other hother heq => hrest ?_
      rwa [List.append_cancel_left heq]

theorem ofSettings_follows (home dir path : Text) (s : Settings) :
    Follows home dir s { ofSettings (some home) dir s with path } where
  moduleRoot := takes_nonEmpty (resolvePath_denotes home dir) _ _
  exclude := takes_getD _ _
  respectIgnores := takes_getD _ _
  maxCallDepth := takes_getD _ _
  logLevel := by simpa [ofSettings] using takes_nonEmpty (f := id) (fun _ => rfl) _ s.logLevel
  historyFile := takes_nonEmpty (resolvePath_denotes home dir) _ _
  prompt := takes_getD _ _

/-! ### Places that stay what they are -/

/-- A path that is clean and from the root, and so the same place whatever folder it is seen from,
in this settings file or another. -/
structure Settled (p : Text) : Prop where
  rooted : Path.IsRooted p
  isAbsolute : Path.isAbsolute p = true
  clean_eq : Path.clean p = p
  resolvePath_eq : ∀ (home : Option Text) (dir : Text), resolvePath home dir p = p

theorem resolvePath_of_isAbsolute {p : Text} (h : Path.isAbsolute p = true) (home : Option Text)
    (dir : Text) : resolvePath home dir p = Path.resolve dir p := by
  have hafter : Text.afterPrefix? "~" p = none := by
    rw [Option.eq_none_iff_forall_ne_some]
    intro rest hrest
    rw [Text.afterPrefix?_eq_some_iff.1 hrest] at h
    cases h
  unfold resolvePath
  rw [hafter]
  cases home <;> rfl

theorem settled_of_isRooted {p : Text} (h : Path.IsRooted p) : Settled p where
  rooted := h
  isAbsolute := h.isAbsolute
  clean_eq := h.clean_eq
  resolvePath_eq home dir := by rw [resolvePath_of_isAbsolute h.isAbsolute, h.resolve_eq]

theorem Denotes.isRooted {home dir p q : Text} (hhome : Path.isAbsolute home = true)
    (hdir : Path.isAbsolute dir = true) (h : Denotes home dir p q) : Path.IsRooted q := by
  cases h with
  | home _ => exact Path.isRooted_join hhome _
  | root hp => exact Path.isRooted_clean hp
  | below _ _ => exact Path.isRooted_join hdir _

theorem Takes.isRooted {home dir otherwise q : Text} {setting : Option Text}
    (hhome : Path.isAbsolute home = true) (hdir : Path.isAbsolute dir = true)
    (hotherwise : Path.IsRooted otherwise)
    (h : Takes (· ≠ []) (Denotes home dir) otherwise setting q) : Path.IsRooted q := by
  cases h with
  | given _ hdenotes => exact hdenotes.isRooted hhome hdir
  | absent _ => exact hotherwise

/-! ### Issues -/

/-- An issue that a configuration has. -/
inductive Violates (c : Config) : Issue → Prop where
  | depth : c.maxCallDepth < 1 → Violates c (.depthNotPositive c.maxCallDepth)
  | level : LogLevel.ofText? c.logLevel = none → Violates c (.unknownLevel c.logLevel)
  | exclude {index : Nat} {name : Text} : c.exclude[index]? = some name →
      name = [] ∨ Path.slash ∈ name → Violates c (.notPlainName index)

/-- Where an issue stands among others: the depth, the level, then the excluded names in turn. -/
def Issue.place : Issue → Nat
  | depthNotPositive _ => 0
  | unknownLevel _ => 1
  | notPlainName index => index + 2

theorem isPlainName_eq_false_iff {name : Text} :
    isPlainName name = false ↔ name = [] ∨ Path.slash ∈ name := by
  by_cases hname : name = [] <;> simp [isPlainName, hname]

theorem mem_excludeIssues_iff {i : Issue} {names : List Text} {index : Nat} :
    i ∈ excludeIssues index names ↔ ∃ k name, names[k]? = some name ∧
      (name = [] ∨ Path.slash ∈ name) ∧ i = .notPlainName (index + k) := by
  induction names generalizing index with
  | nil => simp [excludeIssues]
  | cons first rest ih =>
    have hnext : ∀ k, index + 1 + k = index + (k + 1) := fun k => by omega
    rw [excludeIssues, List.mem_append, List.mem_ite_nil_left, List.mem_singleton, ih]
    constructor
    · rintro (⟨hfirst, rfl⟩ | ⟨k, name, hk, hbad, rfl⟩)
      · exact ⟨0, first, rfl, isPlainName_eq_false_iff.1 (by simpa using hfirst), rfl⟩
      · exact ⟨k + 1, name, hk, hbad, by rw [hnext]⟩
    · rintro ⟨k, name, hk, hbad, rfl⟩
      cases k with
      | zero =>
        obtain rfl : first = name := by simpa using hk
        exact .inl ⟨by simp [isPlainName_eq_false_iff.2 hbad], rfl⟩
      | succ k => exact .inr ⟨k, name, hk, hbad, by rw [hnext]⟩

theorem pairwise_excludeIssues (index : Nat) (names : List Text) :
    (excludeIssues index names).Pairwise (·.place < ·.place) := by
  induction names generalizing index with
  | nil => exact .nil
  | cons first rest ih =>
    refine List.pairwise_append.2 ⟨by split <;> simp, ih _, ?_⟩
    intro i hi j hj
    rw [List.mem_ite_nil_left, List.mem_singleton] at hi
    obtain ⟨k, -, -, -, rfl⟩ := mem_excludeIssues_iff.1 hj
    rw [hi.2, Issue.place, Issue.place]
    omega

/-- The issues of a configuration are those that it has. -/
theorem mem_issues_iff (c : Config) (i : Issue) : i ∈ c.issues ↔ Violates c i := by
  rw [issues, List.mem_append, List.mem_append, List.mem_ite_nil_right, List.mem_ite_nil_right,
    mem_excludeIssues_iff, List.mem_singleton, List.mem_singleton, Option.isNone_iff_eq_none]
  constructor
  · rintro ((⟨hdepth, rfl⟩ | ⟨hlevel, rfl⟩) | ⟨k, name, hk, hbad, rfl⟩)
    · exact .depth (Int.lt_add_one_iff.2 hdepth)
    · exact .level hlevel
    · rw [Nat.zero_add]
      exact .exclude hk hbad
  · intro h
    cases h with
    | depth hdepth => exact .inl (.inl ⟨Int.lt_add_one_iff.1 hdepth, rfl⟩)
    | level hlevel => exact .inl (.inr ⟨hlevel, rfl⟩)
    | @exclude k name hk hbad => exact .inr ⟨k, name, hk, hbad, by rw [Nat.zero_add]⟩

/-- They come in order, and each of them once. -/
theorem pairwise_issues (c : Config) : c.issues.Pairwise (·.place < ·.place) := by
  have hboth : ((if c.maxCallDepth ≤ 0 then [Issue.depthNotPositive c.maxCallDepth] else []) ++
      if (LogLevel.ofText? c.logLevel).isNone then [Issue.unknownLevel c.logLevel] else []).Pairwise
        (·.place < ·.place) := by
    split <;> split <;> simp [Issue.place]
  -- these two come first, and the excluded names from the third place on
  refine List.pairwise_append.2 ⟨hboth, pairwise_excludeIssues 0 c.exclude, ?_⟩
  intro i hi j hj
  obtain ⟨k, -, -, -, rfl⟩ := mem_excludeIssues_iff.1 hj
  rw [List.mem_append, List.mem_ite_nil_right, List.mem_ite_nil_right, List.mem_singleton,
    List.mem_singleton] at hi
  rcases hi with ⟨-, rfl⟩ | ⟨-, rfl⟩ <;> simp [Issue.place]

/-! ### Usable configurations -/

/-- A configuration with which the program can work. -/
structure Usable (c : Config) : Prop where
  depth : 1 ≤ c.maxCallDepth
  level : LogLevel.ofText? c.logLevel = some c.level
  exclude : ∀ name ∈ c.exclude, name ≠ [] ∧ Path.slash ∉ name
  moduleRoot : Settled c.moduleRoot
  historyFile : Settled c.historyFile

/-- Nothing else can be wrong. -/
theorem usable_of_issues_eq_nil {c : Config} (h : c.issues = [])
    (hroot : Path.IsRooted c.moduleRoot) (hhistory : Path.IsRooted c.historyFile) : c.Usable := by
  have hnone : ∀ i, ¬ Violates c i := by
    intro i hi
    rw [← mem_issues_iff, h] at hi
    cases hi
  refine ⟨?_, ?_, ?_, settled_of_isRooted hroot, settled_of_isRooted hhistory⟩
  · exact Int.not_lt.1 fun hlow => hnone _ (.depth hlow)
  · cases hlevel : LogLevel.ofText? c.logLevel with
    | none => exact absurd (.level hlevel) (hnone _)
    | some level => rw [Config.level, hlevel, Option.getD_some]
  · intro name hname
    obtain ⟨k, hk⟩ := List.mem_iff_getElem?.1 hname
    refine ⟨fun hempty => hnone _ (.exclude hk (.inl hempty)), fun hslash => ?_⟩
    exact hnone _ (.exclude hk (.inr hslash))

section Loading

variable {home dir path : Text} {s : Settings} {c : Config}

/-- The two paths of a configuration that follows settings. -/
theorem Follows.isRooted (h : Follows home dir s c) (hhome : Path.isAbsolute home = true)
    (hdir : Path.IsRooted dir) : Path.IsRooted c.moduleRoot ∧ Path.IsRooted c.historyFile :=
  ⟨h.moduleRoot.isRooted hhome hdir.isAbsolute hdir,
    h.historyFile.isRooted hhome hdir.isAbsolute (Path.isRooted_join hhome [historyName])⟩

theorem check_cases (hhome : Path.isAbsolute home = true) (hpath : Path.IsRooted path)
    (s : Settings) :
    ∃ config : Config, config.path = path ∧ Follows home (Path.parent path) s config ∧
      (check (some home) path s = .ok config ∧ config.Usable ∨
        check (some home) path s = .error (.invalid config.issues) ∧ config.issues ≠ []) := by
  have hfollows := ofSettings_follows home (Path.parent path) path s
  refine ⟨_, rfl, hfollows, ?_⟩
  obtain ⟨hroot, hhistory⟩ := hfollows.isRooted hhome hpath.parent
  unfold check
  dsimp only
  split
  next hissues => exact .inl ⟨rfl, usable_of_issues_eq_nil hissues hroot hhistory⟩
  next hissues => exact .inr ⟨rfl, hissues⟩

theorem load_eq_check {disk : Disk} {content : Text} (hpath : Path.isAbsolute path = true)
    (hfile : disk.lookup (Path.clean path) = .ok (.file content))
    (hread : Settings.ofBytes content = .ok s) (home : Option Text) :
    load disk home path = check home (Path.clean path) s := by
  have habsolute : disk.absolute path = Path.clean path := by
    rw [Disk.absolute, Path.resolve, if_pos hpath]
  rw [load, if_neg (Path.ne_nil_of_isAbsolute hpath), habsolute]
  simp only [hfile, hread]

end Loading

/-- A settings file that can be read, at an absolute path and with an absolute home folder. It
comes down to a configuration that follows it field by field. Either this is the result, and usable;
or the result is what is wrong with it: at least one issue, all those that it has, no others, each
of them once and in order. -/
theorem load_usable_or_explained (disk : Disk) {home path content : Text} {s : Settings}
    (hhome : Path.isAbsolute home = true) (hpath : Path.isAbsolute path = true)
    (hfile : disk.lookup (Path.clean path) = .ok (.file content))
    (hread : Settings.ofBytes content = .ok s) :
    ∃ config : Config, config.path = Path.clean path ∧
      Follows home (Path.parent (Path.clean path)) s config ∧
      (load disk (some home) path = .ok config ∧ config.Usable ∨
        ∃ issues, load disk (some home) path = .error (.invalid issues) ∧ issues ≠ [] ∧
          (∀ i, i ∈ issues ↔ Violates config i) ∧ issues.Pairwise (·.place < ·.place)) := by
  obtain ⟨config, hconfig, hfollows, hcheck⟩ := check_cases hhome (Path.isRooted_clean hpath) s
  rw [load_eq_check hpath hfile hread]
  refine ⟨config, hconfig, hfollows, hcheck.imp_right ?_⟩
  rintro ⟨hinvalid, hne⟩
  exact ⟨config.issues, hinvalid, hne, mem_issues_iff config, pairwise_issues config⟩

/-- A file with a depth of zero and with two excluded names that are no names. -/
theorem load_usable_or_explained_zero :
    let content : Text := "max_call_depth: 0\nexclude: [a/b, ok, \"\"]\nhistory_file: ~/../h\n"
    let disk : Disk := ⟨.folder [("lox.yml", .file content)], "/"⟩
    let s : Settings := { maxCallDepth := some 0, exclude := some ["a/b", "ok", ""],
                          historyFile := some "~/../h" }
    load disk (some "/home/u") "//./lox.yml" =
      .error (.invalid [.depthNotPositive 0, .notPlainName 0, .notPlainName 2]) ∧
    Settings.ofBytes content = .ok s ∧
    ∃ config : Config, config.path = "/lox.yml" ∧ Follows "/home/u" "/" s config ∧
      ∃ issues, load disk (some "/home/u") "//./lox.yml" = .error (.invalid issues) ∧
        (∀ i, i ∈ issues ↔ Violates config i) ∧ issues.Pairwise (·.place < ·.place) := by
  intro content disk s
  have hread : Settings.ofBytes content = .ok s := by decide +kernel
  have hhome : Path.isAbsolute "/home/u" = true := by decide
  have hpath : Path.isAbsolute "//./lox.yml" = true := by decide
  have hfile : disk.lookup (Path.clean "//./lox.yml") = .ok (.file content) := by rfl
  have hload : load disk (some "/home/u") "//./lox.yml" =
      .error (.invalid [.depthNotPositive 0, .notPlainName 0, .notPlainName 2]) := by decide +kernel
  obtain ⟨config, hconfig, hfollows, ⟨hok, -⟩ | ⟨issues, hissues, -, hmem, hordered⟩⟩ :=
    load_usable_or_explained disk hhome hpath hfile hread
  · rw [hload] at hok
    cases hok
  · exact ⟨hload, hread, config, hconfig, hfollows, issues, hissues, hmem, hordered⟩

end Lox.Config
