import Lox.Proofs.Scope.Occurrence
import Lox.Proofs.Scope.Walk
import Mathlib

/-!
# The resolver at a place

The resolver carries along what it has come through: the enclosing function, class and loop, and a
stack of scopes that grow on the way. At every place this agrees with the constructs around the
place, so that what the resolver reports and which addresses it gives can be told from the place
alone.
-/

namespace Lox

/-! ### Scopes -/

namespace Scopes

variable {scopes : Scopes} {names : List (List Text)} {x : Text}

/-- Enters names that are ready, one after the other. -/
def enterAll (scopes : Scopes) (ms : List Mark) : Scopes :=
  ms.foldl (fun scopes m => scopes.enter m.lexeme true) scopes

theorem enterAll_append (scopes : Scopes) (ms ms' : List Mark) :
    scopes.enterAll (ms ++ ms') = (scopes.enterAll ms).enterAll ms' :=
  List.foldl_append

theorem fst_enterParams (scopes : Scopes) (ps : List Mark) :
    (scopes.enterParams ps).1 = scopes.enterAll ps := by
  induction ps generalizing scopes with
  | nil => rfl
  | cons p ps ih => exact ih _

/-- Each scope declares the names of a list. -/
def Declares (scopes : Scopes) (names : List (List Text)) : Prop :=
  List.Forall₂ (fun scope ns => ∀ x, scope.contains x = true ↔ x ∈ ns) scopes names

/-- Whether a name is declared in the innermost scope but not ready there. -/
def Awaits (scopes : Scopes) (x : Text) : Prop :=
  scopes.head?.bind (·.find? x) = some false

theorem Declares.enter (h : scopes.Declares names) (x : Text) (ready : Bool) :
    (scopes.enter x ready).Declares (names.modifyHead (· ++ [x])) := by
  cases h with
  | nil => exact .nil
  | cons hscope houter =>
    refine .cons (fun y => ?_) houter
    rw [Table.contains_insert, List.mem_append, List.mem_singleton, ← hscope y, Bool.or_eq_true,
      decide_eq_true_iff, or_comm]

theorem Declares.enterAll (h : scopes.Declares names) (ms : List Mark) :
    (scopes.enterAll ms).Declares (names.modifyHead (· ++ ms.map Mark.lexeme)) := by
  induction ms generalizing scopes names with
  | nil => cases h with
    | nil => exact .nil
    | cons hscope houter => exact .cons (by simpa using hscope) houter
  | cons m ms ih =>
    have hms := ih (h.enter m.lexeme true)
    cases h with
    | nil => exact hms
    | cons => simpa [Scopes.enterAll, List.append_assoc] using hms

theorem Declares.push (h : scopes.Declares names) : Declares (∅ :: scopes) ([] :: names) :=
  .cons (by simp [Table.contains]) h

theorem Declares.single (h : scopes.Declares names) (x : Text) :
    Declares (.single x true :: scopes) ([x] :: names) := by
  refine .cons (fun y => ?_) h
  by_cases hy : x = y
  · simp [Table.contains, Table.find?, Table.single, Table.lookup, hy]
  · simp [Table.contains, Table.find?, Table.single, Table.lookup, hy, Ne.symm hy]

/-- The nearest scope that declares a name. -/
theorem Declares.address_eq (h : scopes.Declares names) (x : Text) :
    scopes.address x = names.findIdx? (x ∈ ·) := by
  unfold address
  induction h with
  | nil => rfl
  | @cons scope ns _ _ hscope _ ih =>
    rw [List.findIdx?_cons, List.findIdx?_cons, ih]
    by_cases hx : x ∈ ns <;> simp [hx, hscope x]

theorem not_awaits_enterAll (h : ∀ x, ¬ scopes.Awaits x) (ms : List Mark) :
    ∀ x, ¬ (scopes.enterAll ms).Awaits x := by
  induction ms generalizing scopes with
  | nil => exact h
  | cons m ms ih =>
    refine ih fun x hx => ?_
    cases scopes with
    | nil => cases hx
    | cons scope outer =>
      by_cases heq : x = m.lexeme
      · subst heq
        simp [Awaits, enter] at hx
      · refine h x ?_
        simpa [Awaits, enter, Table.find?_insert_of_ne _ heq] using hx

end Scopes

/-- The scopes behind a statement: the names that it declares are ready. -/
theorem Stmt.resolve_scopes (s : Surroundings) (scopes : Scopes) : (stmt : Stmt Unit) →
    (stmt.resolve s scopes).2.1 = scopes.enterAll stmt.declared
  | .expression _ | .print _ | .varDecl _ none | .block _ | .ret _ none | .ret _ (some _) | .brk _
  | .funDecl _ _ | .classDecl _ none _ | .classDecl _ (some _) _ | .importDecl _ _ => rfl
  | .varDecl name (some _) => scopes.enter_enter name.lexeme false true
  | .branch _ yes none => yes.resolve_scopes s scopes
  | .branch _ yes (some no) => by
    simp only [Stmt.resolve, Stmt.declared, Scopes.enterAll_append, no.resolve_scopes,
      yes.resolve_scopes]
  | .loop _ body => body.resolve_scopes _ scopes

/-! ### Surroundings -/

namespace Enclosure

/-- The enclosing function, class and loop of a place. -/
def surroundings : List Enclosure → Surroundings
  | [] => {}
  | function _ :: around => { surroundings around with inFunction := .function, inLoop := false }
  | method static name _ :: around =>
    { surroundings around with inFunction := .ofMethod static name.lexeme, inLoop := false }
  | classBody derived :: around =>
    { surroundings around with inClass := if derived then .derived else .plain }
  | loop :: around => { surroundings around with inLoop := true }
  | _ :: around => surroundings around

theorem inLoop_surroundings (around : List Enclosure) :
    (surroundings around).inLoop = (around.takeWhile (!·.isFunction)).any isLoop := by
  induction around with
  | nil => rfl
  | cons e around ih => cases e <;> simp [surroundings, isFunction, isLoop, ih]

/-- What is wrong with a receiver, by the classes around it. -/
theorem receiverProblem?_surroundings (around : List Enclosure) (keyword : Mark) :
    (surroundings around).receiverProblem? = Occurrence.problem? ⟨around, .receiver keyword⟩ := by
  induction around with
  | nil => rfl
  | cons e around ih =>
    cases e with
    | classBody derived => cases derived <;> rfl
    | _ => exact ih

/-- What is wrong with a `super`, by the nearest class around it. -/
theorem inheritedProblem?_surroundings (around : List Enclosure) (keyword : Mark) :
    (surroundings around).inheritedProblem? =
      Occurrence.problem? ⟨around, .inherited keyword⟩ := by
  induction around with
  | nil => rfl
  | cons e around ih =>
    cases e with
    | classBody derived => cases derived <;> rfl
    | _ => exact ih

/-- What is wrong with a `return`, by the nearest function around it. -/
theorem returnFaults_surroundings (around : List Enclosure) (keyword : Mark) (hasValue : Bool) :
    (surroundings around).returnFaults keyword hasValue =
      (Occurrence.diagnostic? ⟨around, .ret keyword hasValue⟩).toList := by
  induction around with
  | nil => rfl
  | cons e around ih =>
    cases e with
    | function params => rfl
    | method static name params =>
      have hnearest : (method static name params :: around).find? isFunction =
          some (method static name params) := rfl
      by_cases hinit : name.lexeme = "init" <;> cases static <;> cases hasValue <;>
        simp [surroundings, Surroundings.returnFaults, FunctionContext.ofMethod,
          Occurrence.diagnostic?, Occurrence.problem?, hnearest, Subject.mark, hinit]
    | _ => exact ih

/-! ### What the resolver carries along -/

/-- The constructs around a place agree with what the resolver carries along there. A name is not
ready where the place is directly in its initializer. -/
structure Describes (around : List Enclosure) (s : Surroundings) (scopes : Scopes) : Prop where
  surroundings : s = Enclosure.surroundings around
  declares : scopes.Declares (Enclosure.scopes around)
  awaits : ∀ x, scopes.Awaits x ↔ initialized? around = some x

namespace Describes

variable {around around' : List Enclosure} {s : Surroundings} {scopes : Scopes}

/-- At the start of a program nothing has been declared. -/
theorem start : Describes [.following []] {} [] where
  surroundings := rfl
  declares := .nil
  awaits x := by simp [Scopes.Awaits, initialized?]

theorem not_awaits (h : Describes around s scopes) (hi : initialized? around = none) :
    ∀ x, ¬ scopes.Awaits x := by
  intro x hx
  rw [h.awaits, hi] at hx
  cases hx

/-- Behind the declarations of names, all of which are ready. -/
theorem enterAll (h : Describes around s scopes) (hi : initialized? around = none)
    (ms : List Mark) (hs : Enclosure.surroundings around' = Enclosure.surroundings around)
    (hscopes : Enclosure.scopes around' =
      (Enclosure.scopes around).modifyHead (· ++ ms.map Mark.lexeme))
    (hi' : initialized? around' = none) : Describes around' s (scopes.enterAll ms) where
  surroundings := h.surroundings.trans hs.symm
  declares := hscopes ▸ h.declares.enterAll ms
  awaits x := by
    rw [hi']
    exact iff_of_false (Scopes.not_awaits_enterAll (h.not_awaits hi) ms x) (by simp)

theorem declaring (h : Describes around s scopes) (hi : initialized? around = none)
    (name : Mark) : Describes (.declaring name :: around) s (scopes.enter name.lexeme true) :=
  h.enterAll hi [name] rfl rfl rfl

/-- In the initializer of a variable. -/
theorem initializing (h : Describes around s scopes) (hi : initialized? around = none)
    (name : Mark) :
    Describes (.initializing name :: around) s (scopes.enter name.lexeme false) where
  surroundings := h.surroundings
  declares := h.declares.enter name.lexeme false
  awaits x := by
    have hready := h.not_awaits hi x
    have hopen : scopes = [] ↔ Enclosure.scopes around = [] := by
      rw [← List.length_eq_zero_iff, ← List.length_eq_zero_iff, h.declares.length_eq]
    cases scopes with
    | nil => simp [Scopes.Awaits, Scopes.enter, initialized?, hopen.mp rfl]
    | cons scope outer =>
      have hlocal : Enclosure.scopes around ≠ [] := fun heq => by cases hopen.mpr heq
      by_cases hx : x = name.lexeme
      · simp [Scopes.Awaits, Scopes.enter, initialized?, hlocal, hx]
      · have hfind : scope.find? x ≠ some false := hready
        simp [Scopes.Awaits, Scopes.enter, initialized?, hlocal, Ne.symm hx,
          Table.find?_insert_of_ne _ hx, hfind]

theorem loop (h : Describes around s scopes) (hi : initialized? around = none) :
    Describes (.loop :: around) { s with inLoop := true } scopes where
  surroundings := by rw [h.surroundings]; rfl
  declares := h.declares
  awaits x := iff_of_false (h.not_awaits hi x) (by simp [initialized?])

/-- In a new scope nothing has been declared. -/
theorem block (h : Describes around s scopes) : Describes (.block :: around) s (∅ :: scopes) where
  surroundings := h.surroundings
  declares := h.declares.push
  awaits x := iff_of_false (by simp [Scopes.Awaits]) (by simp [initialized?])

theorem function (h : Describes around s scopes) (params : List Mark) :
    Describes (.function params :: around) { s with inFunction := .function, inLoop := false }
      (Scopes.enterAll (∅ :: scopes) params) where
  surroundings := by rw [h.surroundings]; rfl
  declares := h.declares.push.enterAll params
  awaits x := iff_of_false (Scopes.not_awaits_enterAll (by simp [Scopes.Awaits]) params x)
    (by simp [initialized?])

theorem method (h : Describes around s scopes) (static : Bool) (name : Mark)
    (params : List Mark) :
    Describes (.method static name params :: around)
      { s with inFunction := .ofMethod static name.lexeme, inLoop := false }
      (Scopes.enterAll (∅ :: .single "this" true :: scopes) params) where
  surroundings := by rw [h.surroundings]; rfl
  declares := (h.declares.single "this").push.enterAll params
  awaits x := iff_of_false (Scopes.not_awaits_enterAll (by simp [Scopes.Awaits]) params x)
    (by simp [initialized?])

theorem plain (h : Describes around s scopes) (hi : initialized? around = none) :
    Describes (.classBody false :: around) { s with inClass := .plain } scopes where
  surroundings := by rw [h.surroundings]; rfl
  declares := h.declares
  awaits x := iff_of_false (h.not_awaits hi x) (by simp [initialized?])

theorem derived (h : Describes around s scopes) :
    Describes (.classBody true :: around) { s with inClass := .derived }
      (.single "super" true :: scopes) where
  surroundings := by rw [h.surroundings]; rfl
  declares := h.declares.single "super"
  awaits x := by
    refine iff_of_false ?_ (by simp [initialized?])
    by_cases hx : "super" = x <;>
      simp [Scopes.Awaits, Table.find?, Table.single, Table.lookup, hx]

/-- At the start of statements in a new scope. -/
theorem first (h : Describes around s scopes) (hi : initialized? around = none) :
    Describes (.following [] :: around) s scopes :=
  h.enterAll hi [] rfl rfl rfl

/-- Behind a statement. -/
theorem next {before : List (Stmt Unit)} (h : Describes (.following before :: around) s scopes)
    (stmt : Stmt Unit) :
    Describes (.following (before ++ [stmt]) :: around) s (stmt.resolve s scopes).2.1 := by
  rw [stmt.resolve_scopes]
  refine h.enterAll rfl stmt.declared rfl ?_ rfl
  simp only [Enclosure.scopes, List.modifyHead_modifyHead]
  congr 1
  funext names
  simp

/-- Behind one statement that stands by itself. -/
theorem behind (h : Describes around s scopes) (hi : initialized? around = none)
    (stmt : Stmt Unit) :
    Describes (.following [stmt] :: around) s (stmt.resolve s scopes).2.1 :=
  (h.first hi).next stmt

/-! ### Reports and addresses -/

theorem redeclared_eq (h : Describes around s scopes) (m : Mark) :
    scopes.redeclared m = (Occurrence.diagnostic? ⟨around, .declaration m⟩).toList := by
  have hd := h.declares
  unfold Occurrence.diagnostic? Occurrence.problem? Occurrence.scopes
  dsimp only
  generalize Enclosure.scopes around = names at hd ⊢
  cases hd with
  | nil => rfl
  | @cons scope ns _ _ hscope _ =>
    by_cases hm : m.lexeme ∈ ns <;> simp [Scopes.redeclared, hscope, hm, Subject.mark]

theorem unready_eq (h : Describes around s scopes) (m : Mark) :
    scopes.unready m = (Occurrence.diagnostic? ⟨around, .read m⟩).toList := by
  have ha := h.awaits m.lexeme
  cases scopes with
  | nil =>
    have hi : initialized? around ≠ some m.lexeme := fun hi => by cases ha.mpr hi
    simp [Scopes.unready, Occurrence.diagnostic?, Occurrence.problem?, hi]
  | cons scope outer =>
    have ha : scope.find? m.lexeme = some false ↔ initialized? around = some m.lexeme := ha
    by_cases hi : initialized? around = some m.lexeme <;>
      simp [Scopes.unready, Occurrence.diagnostic?, Occurrence.problem?, ha, hi, Subject.mark]

theorem unready_eq_nil (h : Describes around s scopes) (hi : initialized? around = none)
    (m : Mark) : scopes.unready m = [] := by
  simp [h.unready_eq, Occurrence.diagnostic?, Occurrence.problem?, hi]

theorem address_eq (h : Describes around s scopes) (subject : Subject) (x : Text) :
    scopes.address x = Occurrence.address ⟨around, subject⟩ x :=
  h.declares.address_eq x

end Describes

end Enclosure

/-! ### Resolved occurrences -/

/-- What occurrences give, one by one with the occurrences that give something. -/
theorem Occurrence.forall₂_filterMap {β : Type} {R : Occurrence → β → Prop}
    {keep : Occurrence → Bool} {f : Occurrence → Option β} (hkeep : ∀ o, keep o = (f o).isSome)
    (hf : ∀ o b, f o = some b → R o b) (os : List Occurrence) :
    List.Forall₂ R (os.filter keep) (os.filterMap f) := by
  induction os with
  | nil => exact .nil
  | cons o os ih =>
    cases hb : f o with
    | none => simpa [hkeep, hb] using ih
    | some b =>
      rw [List.filter_cons_of_pos (by simp [hkeep, hb]), List.filterMap_cons_some hb]
      exact .cons (hf o b hb) ih

/-- Reports and references are those of occurrences; reports may come in another order. -/
structure Resolves (os : List Occurrence) (faults : List Diagnostic)
    (references : List (Reference Address)) : Prop where
  faults : faults.Perm (os.filterMap Occurrence.diagnostic?)
  references : references = os.filterMap Occurrence.reference?

namespace Resolves

variable {os os' : List Occurrence} {faults faults' : List Diagnostic}
  {references references' : List (Reference Address)}

theorem nil : Resolves [] [] [] := ⟨.nil, rfl⟩

theorem append (h : Resolves os faults references) (h' : Resolves os' faults' references') :
    Resolves (os ++ os') (faults ++ faults') (references ++ references') where
  faults := by
    rw [List.filterMap_append]
    exact h.faults.append h'.faults
  references := by rw [List.filterMap_append, ← h.references, ← h'.references]

/-- Reports in another order. -/
theorem perm (h : Resolves os faults references) (hf : faults'.Perm faults) :
    Resolves os faults' references :=
  ⟨hf.trans h.faults, h.references⟩

/-- A single occurrence. -/
theorem one {o : Occurrence} {r : Option (Reference Address)}
    (hf : faults = o.diagnostic?.toList) (hr : o.reference? = r) :
    Resolves [o] faults r.toList where
  faults := by cases hd : o.diagnostic? <;> simp [hf, hd]
  references := by cases hr' : o.reference? <;> simp [← hr, hr']

/-- An occurrence before others. -/
theorem cons {o : Occurrence} {own : List Diagnostic} {r : Option (Reference Address)}
    (h : Resolves os faults references) (hf : own = o.diagnostic?.toList)
    (hr : o.reference? = r) : Resolves (o :: os) (own ++ faults) (r.toList ++ references) :=
  (one hf hr).append h

end Resolves

/-! ### Trees -/

section

variable {around : List Enclosure} {s : Surroundings} {scopes : Scopes}

/-- A reference that is in place has the address of its name. -/
theorem Enclosure.Describes.reference_eq (h : Enclosure.Describes around s scopes)
    {subject : Subject} {kind : ReferenceKind} {x : Text}
    (hr : subject.reference? = some (kind, x))
    (hm : Occurrence.isMisplaced ⟨around, subject⟩ = false) :
    Occurrence.reference? ⟨around, subject⟩ = some ⟨kind, subject.mark, scopes.address x⟩ := by
  unfold Occurrence.reference?
  rw [hr, hm, h.address_eq subject]
  rfl

/-- A keyword that refers to a name is reported, or else has the address of the name. -/
theorem Enclosure.Describes.keyword (h : Enclosure.Describes around s scopes) (subject : Subject)
    {problem? : Option ScopeProblem} {kind : ReferenceKind} {x : Text}
    (hp : problem? = Occurrence.problem? ⟨around, subject⟩)
    (hr : subject.reference? = some (kind, x))
    (hm : Occurrence.isMisplaced ⟨around, subject⟩ =
      (Occurrence.problem? ⟨around, subject⟩).isSome) :
    Resolves [⟨around, subject⟩] (scopes.keyword problem? subject.mark x).2
      [⟨kind, subject.mark, (scopes.keyword problem? subject.mark x).1⟩] := by
  refine .one (r := some _) ?_ ?_
  · unfold Occurrence.diagnostic?
    rw [← hp]
    cases problem? <;> rfl
  · rw [← hp] at hm
    cases problem? with
    | none => exact h.reference_eq hr hm
    | some problem =>
      unfold Occurrence.reference?
      rw [hr, hm]
      rfl

/-- Parameters are declared one after the other. -/
theorem Scopes.resolves_enterParams {form : List Mark → Enclosure}
    (h : ∀ ps, Enclosure.Describes (form ps :: around) s (Scopes.enterAll (∅ :: scopes) ps))
    (before ps : List Mark) :
    Resolves (Mark.occurrences form around before ps)
      (Scopes.enterParams (Scopes.enterAll (∅ :: scopes) before) ps).2 [] := by
  induction ps generalizing before with
  | nil => exact .nil
  | cons p ps ih =>
    have hrest := ih (before ++ [p])
    rw [Scopes.enterAll_append] at hrest
    exact hrest.cons ((h before).redeclared_eq p) rfl

mutual

/-- What the resolver does in an expression. -/
theorem Expr.resolves {around : List Enclosure} {s : Surroundings} {scopes : Scopes}
    (h : Enclosure.Describes around s scopes) : (e : Expr Unit) →
    Resolves (e.occurrences around) (e.resolve s scopes).2 (e.resolve s scopes).1.references
  | .literal _ => .nil
  | .group inner => inner.resolves h
  | .unary _ _ operand => operand.resolves h
  | .binary _ _ left right => (left.resolves h).append (right.resolves h)
  | .logical _ _ left right => (left.resolves h).append (right.resolves h)
  | .conditional condition yes no =>
    ((condition.resolves h).append (yes.resolves h)).append (no.resolves h)
  | .name mark _ => .one (h.unready_eq mark) (h.reference_eq rfl rfl)
  | .assign mark _ value =>
    (Resolves.one (o := ⟨around, .assignment mark⟩) rfl (h.reference_eq rfl rfl)).append
      (value.resolves h)
  | .get object _ => object.resolves h
  | .set object _ value =>
    -- the value is resolved before the object it is written to
    ((object.resolves h).append (value.resolves h)).perm List.perm_append_comm
  | .call callee _ arguments => (callee.resolves h).append (Expr.resolvesAll h arguments)
  | .function _ fn => fn.resolves .function h.function fun _ => rfl
  | .receiver keyword _ =>
    h.keyword (.receiver keyword)
      (h.surroundings ▸ Enclosure.receiverProblem?_surroundings around keyword) rfl rfl
  | .inherited keyword _ _ =>
    h.keyword (.inherited keyword)
      (h.surroundings ▸ Enclosure.inheritedProblem?_surroundings around keyword) rfl rfl

theorem Expr.resolvesAll {around : List Enclosure} {s : Surroundings} {scopes : Scopes}
    (h : Enclosure.Describes around s scopes) : (es : List (Expr Unit)) →
    Resolves (Expr.occurrencesAll around es) (Expr.resolveAll s scopes es).2
      (Expr.referencesAll (Expr.resolveAll s scopes es).1)
  | [] => .nil
  | e :: es => (e.resolves h).append (Expr.resolvesAll h es)

/-- What the resolver does in a function of some form. -/
theorem Function.resolves {around : List Enclosure} {s : Surroundings} {scopes : Scopes}
    (form : List Mark → Enclosure)
    (h : ∀ ps, Enclosure.Describes (form ps :: around) { s with inLoop := false }
      (Scopes.enterAll (∅ :: scopes) ps))
    (hi : ∀ ps, Enclosure.initialized? (form ps :: around) = none) : (f : Function Unit) →
    Resolves (f.occurrences form around) (f.resolve s scopes).2 (f.resolve s scopes).1.references
  | .mk params body => by
    have hbody := Stmt.resolvesAll ((h params).first (hi params)) body
    rw [← Scopes.fst_enterParams] at hbody
    exact (Scopes.resolves_enterParams h [] params).append hbody

/-- What the resolver does in the methods of a class, given those before them. -/
theorem Method.resolvesAll {around : List Enclosure} {s : Surroundings} {scopes : Scopes}
    (h : Enclosure.Describes around s scopes) {seen : List Text} {before : List (Method Unit)}
    (hseen : ∀ x, x ∈ seen ↔ x ∈ before.map (·.name.lexeme)) : (ms : List (Method Unit)) →
    Resolves (Method.occurrencesAll around before ms) (Method.resolveAll s scopes seen ms).2
      (Method.referencesAll (Method.resolveAll s scopes seen ms).1)
  | [] => .nil
  | .mk static name fn :: ms => by
    have hfn := fn.resolves (s := { s with inFunction := .ofMethod static name.lexeme })
      (.method static name) (h.method static name) fun _ => rfl
    -- the resolver keeps the names it has seen latest first, a place has them in source order
    have hseen' : ∀ x, x ∈ name.lexeme :: seen ↔
        x ∈ (before ++ [Method.mk static name fn]).map (·.name.lexeme) := by
      simp [hseen, Method.name, or_comm]
    have hms := Method.resolvesAll h hseen' ms
    refine (hfn.cons (o := ⟨around, .method before name⟩) ?_ rfl).append hms
    by_cases hname : name.lexeme ∈ seen <;>
      simp [Occurrence.diagnostic?, Occurrence.problem?, Subject.mark, hname, (hseen _).symm]

/-- What the resolver does in a statement. -/
theorem Stmt.resolves {around : List Enclosure} {s : Surroundings} {scopes : Scopes}
    (h : Enclosure.Describes around s scopes) (hi : Enclosure.initialized? around = none) :
    (stmt : Stmt Unit) →
    Resolves (stmt.occurrences around) (stmt.resolve s scopes).2.2
      (stmt.resolve s scopes).1.references
  | .expression e => e.resolves h
  | .print e => e.resolves h
  | .varDecl name none => .one (h.redeclared_eq name) rfl
  | .varDecl name (some initial) =>
    (initial.resolves (h.initializing hi name)).cons (h.redeclared_eq name) rfl
  | .block body => Stmt.resolvesAll (h.block.first rfl) body
  | .branch condition yes none => (condition.resolves h).append (yes.resolves h hi)
  | .branch condition yes (some no) =>
    ((condition.resolves h).append (yes.resolves h hi)).append
      (no.resolves (h.behind hi yes) rfl)
  | .loop condition body => (condition.resolves h).append (body.resolves (h.loop hi) rfl)
  | .ret keyword none =>
    .one (h.surroundings ▸ Enclosure.returnFaults_surroundings around keyword false) rfl
  | .ret keyword (some value) =>
    (value.resolves h).cons
      (h.surroundings ▸ Enclosure.returnFaults_surroundings around keyword true) rfl
  | .brk keyword => by
    refine .one ?_ rfl
    have hloop := Enclosure.inLoop_surroundings around
    rw [← h.surroundings] at hloop
    by_cases hin : s.inLoop = true
    · simp [Occurrence.diagnostic?, Occurrence.problem?, ← hloop, hin]
    · simp [Occurrence.diagnostic?, Occurrence.problem?, ← hloop, hin, Subject.mark]
  | .funDecl name fn =>
    (fn.resolves .function (h.declaring hi name).function fun _ => rfl).cons
      (h.redeclared_eq name) rfl
  | .classDecl name none methods =>
    (Method.resolvesAll ((h.declaring hi name).plain rfl) (fun _ => .rfl) methods).cons
      (h.redeclared_eq name) rfl
  | .classDecl name (some (super, _)) methods => by
    have hafter := h.declaring hi name
    have hnone : ∀ x, x ∈ [] ↔ x ∈ ([] : List (Method Unit)).map (·.name.lexeme) := fun _ => .rfl
    have hmethods := Method.resolvesAll hafter.derived hnone methods
    have hsuper : Resolves [⟨.declaring name :: around, .superclass name super⟩]
        (if super.lexeme = name.lexeme then [.atMark super (.scope .selfInheritance)] else [])
        [⟨.read, super, (scopes.enter name.lexeme true).address super.lexeme⟩] := by
      refine .one ?_ (hafter.reference_eq rfl rfl)
      by_cases hself : super.lexeme = name.lexeme <;>
        simp [Occurrence.diagnostic?, Occurrence.problem?, Subject.mark, hself]
    -- no initializer is being resolved where a statement stands
    have hunready := hafter.unready_eq_nil rfl super
    simp only [Stmt.resolve, hunready, List.append_nil, List.append_assoc]
    exact (hsuper.append hmethods).cons (h.redeclared_eq name) rfl
  | .importDecl _ _ => .one (h.redeclared_eq _) rfl

theorem Stmt.resolvesAll {around : List Enclosure} {s : Surroundings} {scopes : Scopes}
    {before : List (Stmt Unit)}
    (h : Enclosure.Describes (.following before :: around) s scopes) : (ss : List (Stmt Unit)) →
    Resolves (Stmt.occurrencesAll around before ss) (Stmt.resolveAll s scopes ss).2.2
      (Stmt.referencesAll (Stmt.resolveAll s scopes ss).1)
  | [] => .nil
  | stmt :: ss => (stmt.resolves h rfl).append (Stmt.resolvesAll (h.next stmt) ss)

end

end

/-- What the resolver does in a program. -/
theorem Resolved.resolves_ofProgram (program : Program Unit) :
    Resolves program.occurrences (Resolved.ofProgram program).faults
      (Resolved.ofProgram program).program.references :=
  Stmt.resolvesAll .start program

end Lox
