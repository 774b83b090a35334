import Lox.Proofs.Machine.Range
import Lox.Proofs.Machine.Setting
import Lox.Proofs.Scope.Erasure

/-!
# Steps keep scopes and frames together

If everything in a state fits, everything in the next one does, once what the step has opened is
added to the account.
-/

namespace Lox

namespace Setting

variable {Δ Δ' : Setting} {gain : Gain} {source : Text} {scope : Scope} {scopes : Scopes}
  {origin : Origin} {opened : List Origin} {e env outer : FrameId} {x : Text} {v : Value}
  {bindings : List (Text × Value)}

/-! ### Bindings and frames -/

/-- A name has been bound in a frame. -/
def define (Δ : Setting) (e : FrameId) (x : Text) (v : Value) : Setting :=
  { Δ with store := Δ.store.define e x v }

theorem Extends.define (Δ : Setting) (e : FrameId) (x : Text) (v : Value) :
    Δ.Extends (Δ.define e x v) :=
  ⟨fun _ => id, id, .define _ _ _ _⟩

theorem Sound.define (h : Δ.Sound) (hv : (Δ.define e x v).FitsValue v) :
    (Δ.define e x v).Sound where
  size := h.size.trans Store.size_define.symm
  globals ho hg := Store.parent?_define.trans (h.globals ho hg)
  contents :=
    (h.contents.mono (fun _ => FitsValue.mono h (.define _ _ _ _))
      fun _ => FitsMethod.mono h (.define _ _ _ _)).define e x hv

/-- A definition settles the gain of the name it binds. -/
theorem Settles.define (Δ : Setting) (e : FrameId) (x : Text) (v : Value) :
    Settles (some (e, x)) (Δ.define e x v) none := by
  intro e' x' h he
  obtain ⟨rfl, rfl⟩ : e = e' ∧ x = x' := by simpa using h
  exact Or.inl (Store.binds_define_self (by simpa [Setting.define] using he))

/-- The store has changed, but not the frames. -/
theorem Extends.of_frames_eq {store : Store} (hf : store.frames = Δ.store.frames) :
    Δ.Extends { Δ with store } :=
  ⟨fun _ => id, id, .of_frames_eq hf⟩

theorem Sound.of_frames_eq (h : Δ.Sound) {store : Store} (hf : store.frames = Δ.store.frames)
    (hall : store.All Δ.FitsValue Δ.FitsMethod) : Sound { Δ with store } where
  size := h.size.trans (congrArg Array.size hf.symm)
  globals {g o} ho hg := by
    rw [← h.globals ho hg]
    simp [Store.parent?, hf]
  contents :=
    hall.mono (fun _ => FitsValue.mono h (.of_frames_eq hf))
      fun _ => FitsMethod.mono h (.of_frames_eq hf)

/-- A frame has been created inside another one, or on its own. -/
def push (Δ : Setting) (origin : Origin) (parent : Option FrameId)
    (bindings : List (Text × Value)) : Setting :=
  { Δ with
    origins := Δ.origins ++ [origin]
    store := (Δ.store.newFrameWith parent bindings).2 }

theorem Extends.push (Δ : Setting) (origin : Origin) (parent : Option FrameId)
    (bindings : List (Text × Value)) : Δ.Extends (Δ.push origin parent bindings) where
  sources := fun _ => id
  origins ho := by
    rw [Setting.push, List.getElem?_append_left (List.getElem?_eq_some_iff.mp ho).1]
    exact ho
  store := .newFrameWith _ _ _

theorem Sound.origin_push (h : Δ.Sound) (origin : Origin) (parent : Option FrameId)
    (bindings : List (Text × Value)) :
    (Δ.push origin parent bindings).origins[Δ.store.frames.size]? = some origin := by
  simp [Setting.push, ← h.size]

theorem Sound.push (h : Δ.Sound) {parent : Option FrameId} (hp : origin.isGlobal → parent = none)
    (hb : ∀ b ∈ bindings, Δ.FitsValue b.2) : (Δ.push origin parent bindings).Sound where
  size := by simp [Setting.push, h.size]
  globals {g o} ho hg := by
    by_cases hlt : g < Δ.origins.length
    · rw [Setting.push, List.getElem?_append_left hlt] at ho
      have hsame := (Extends.push Δ origin parent bindings).store.parent g (h.size ▸ hlt)
      exact hsame.trans (h.globals ho hg)
    · obtain rfl : g = Δ.store.frames.size := by
        have hle : g < (Δ.origins ++ [origin]).length := (List.getElem?_eq_some_iff.mp ho).1
        rw [List.length_append, List.length_singleton, h.size] at hle
        rw [h.size] at hlt
        exact Nat.le_antisymm (Nat.le_of_lt_succ hle) (Nat.le_of_not_lt hlt)
      rw [h.origin_push] at ho
      obtain rfl := Option.some.inj ho
      exact Store.parent?_newFrameWith.trans (hp hg)
  contents :=
    (h.contents.mono (fun _ => FitsValue.mono h (.push _ _ _ _))
      fun _ => FitsMethod.mono h (.push _ _ _ _)).newFrameWith parent
        fun b hm => FitsValue.mono h (.push _ _ _ _) (hb b hm)

/-- The new frame fits the scopes of the frame around it and one more, if it binds what is ready
there. -/
theorem Fits.push (h : Δ.Fits none source scopes opened outer) (hs : Δ.Sound)
    (hb : ∀ x, scope.find? x = some true → x ∈ bindings.map Prod.fst) :
    (Δ.push origin (some outer) bindings).Fits none source (scope :: scopes) (origin :: opened)
      Δ.store.frames.size :=
  .frame (hs.origin_push origin (some outer) bindings) Store.parent?_newFrameWith (h.lt_size hs)
    (fun x hx => Or.inl (Store.binds_newFrameWith (hb x hx)))
    (h.mono hs (.push _ _ _ _) (.of_none _ _))

/-! ### Scopes that change -/

theorem Fits.enter_unready (h : Δ.Fits none source scopes opened e) (x : Text) :
    Δ.Fits none source (scopes.enter x false) opened e := by
  cases h with
  | globals hr => exact .globals hr
  | frame ho hp hlt hb houter =>
    refine .frame ho hp hlt (fun y hy => hb y ?_) houter
    by_cases hxy : y = x
    · subst hxy
      simp at hy
    · rwa [Table.find?_insert_of_ne _ hxy] at hy

theorem Fits.enter_ready (h : Δ.Fits none source scopes opened e) (hs : Δ.Sound) (x : Text) :
    Δ.Fits (some (e, x)) source (scopes.enter x true) opened e := by
  cases h with
  | globals hr => exact .globals hr
  | frame ho hp hlt hb houter =>
    refine .frame ho hp hlt (fun y hy => ?_) (houter.mono hs (.refl Δ) (.of_none _ _))
    by_cases hxy : y = x
    · exact Or.inr (by rw [hxy])
    · rw [Table.find?_insert_of_ne _ hxy] at hy
      exact (hb y hy).imp_right (by simp)

/-! ### Parts of what fits -/

theorem Stands.of_mem_parts {y z : Site} {p : Position} (h : Δ.Stands gain y p e)
    (hz : z ∈ y.parts) : Δ.Stands gain z p e := by
  obtain ⟨source, tree, ha, hv, hf⟩ := h
  exact ⟨source, tree, ha, hv.part hz, hf⟩

/-- Other scopes, as long as the frame fits them. -/
theorem Stands.imp {y : Site} {p q : Position} {Δ' : Setting} {gain' : Gain} {e' : FrameId}
    (h : Δ.Stands gain y p e) (hf : ∀ source, Δ.Fits gain source p.scopes p.opened e →
      Δ'.Fits gain' source q.scopes q.opened e') : Δ'.Stands gain' y q e' := by
  obtain ⟨source, tree, ha, hv, h⟩ := h
  exact ⟨source, tree, ha, hv, hf source h⟩

theorem Stands.regular {y : Site} {p : Position} (h : Δ.Stands gain y p e) : y.Regular := by
  obtain ⟨source, tree, ha, hv, -⟩ := h
  exact fun z hz => ha.regular z (hv.trans hz)

/-! ### Functions and methods -/

theorem FitsValue.of_ne (h : ∀ c, v ≠ .function c) : Δ.FitsValue v := by
  cases v with
  | function c => exact absurd rfl (h c)
  | _ => trivial

/-- A method that fits is, bound to a receiver, a function that fits. -/
theorem FitsMethod.bind {m : Closure} (h : Δ.FitsMethod m) (hs : Δ.Sound) (receiver : Value) :
    (Δ.push (.receiver m.fn) (some m.frame) [("this", receiver)]).FitsClosure
      { m with frame := Δ.store.frames.size } := by
  obtain ⟨p, m₀, h, hfn⟩ := h
  refine ⟨p.method m₀, m₀.fn, h.imp fun source hf => ?_, hfn⟩
  rw [hfn]
  exact hf.push hs fun x hx => by simp [Table.eq_of_find?_single hx]

/-- The body of a function that fits can run in a frame that binds its parameters. -/
theorem FitsClosure.body {c : Closure} (h : Δ.FitsClosure c) (hs : Δ.Sound)
    (hb : bindings.map Prod.fst = c.fn.params.map Mark.lexeme) :
    (Δ.push (.call c.fn) (some c.frame) bindings).FitsStmts none c.fn.body
      Δ.store.frames.size := by
  obtain ⟨p, ⟨params, body⟩, h, hfn⟩ := h
  rw [hfn] at hb ⊢
  -- what is ready in the scope of the body are its parameters, and the frame binds just those
  obtain ⟨scope, heq, hready⟩ := Scopes.enterParams_ready ∅ p.scopes params
  refine ⟨p.body (.mk params body), body, ?_, ?_⟩
  · refine (h.of_mem_parts List.mem_cons_self).imp fun source hf => ?_
    simp only [Position.body, Function.params]
    rw [heq]
    refine hf.push hs fun x hx => ?_
    rw [hb]
    exact (hready x hx).resolve_left (by simp)
  · rfl

/-- Of statements one after the other, the first can run, and the others count on what it
declares. -/
theorem FitsStmts.cons {s : Stmt Address} {ss : List (Stmt Address)}
    (h : Δ.FitsStmts none (s :: ss) env) (hs : Δ.Sound) :
    Δ.FitsStmt s env ∧ Δ.FitsStmts (s.declares?.map (env, ·)) ss env := by
  obtain ⟨p, ss₀, h, heq⟩ := h
  cases ss₀ with
  | nil => cases heq
  | cons s₀ ss₀ =>
    obtain ⟨rfl, rfl⟩ := List.cons.inj heq
    have hfirst : Δ.Stands none ⟨p, .stmt s₀⟩ p env := h.of_mem_parts (by simp [Site.parts])
    have hothers : Δ.Stands none ⟨p.after s₀, .stmts ss₀⟩ p env :=
      h.of_mem_parts (by simp [Site.parts])
    refine ⟨⟨p, s₀, hfirst, rfl⟩, ⟨p.after s₀, ss₀, hothers.imp fun source hf => ?_, rfl⟩⟩
    rw [p.after_eq s₀ hfirst.regular, Stmt.declares?_resolve]
    cases s₀.declares? with
    | none => exact hf
    | some x => exact hf.enter_ready hs x

theorem FitsDemand.push {d : Demand} (hd : Δ.FitsDemand d) {p : Pending} (hp : Δ.FitsPending p) :
    Δ.FitsDemand (d.push p) :=
  ⟨List.forall_mem_cons.mpr ⟨hp, hd.1⟩, hd.2⟩

theorem FitsDemand.pop {p : Pending} {ps : List Pending} {u : Use}
    (hd : Δ.FitsDemand ⟨p :: ps, u⟩) : Δ.FitsPending p ∧ Δ.FitsDemand ⟨ps, u⟩ := by
  obtain ⟨hp, hps⟩ := List.forall_mem_cons.mp hd.1
  exact ⟨hp, hps, hd.2⟩

theorem FitsDemand.ofUse {u : Use} (hu : Δ.FitsUse u) : Δ.FitsDemand ⟨[], u⟩ :=
  ⟨List.forall_mem_nil _, hu⟩

/-! ### Expressions -/

theorem FitsExpr.group {e : Expr Address} (h : Δ.FitsExpr (.group e) env) : Δ.FitsExpr e env := by
  obtain ⟨p, e₀, h, heq⟩ := h
  cases e₀ <;> cases heq
  exact ⟨p, _, h.of_mem_parts List.mem_cons_self, rfl⟩

theorem FitsExpr.function {keyword : Mark} {fn : Function Address}
    (h : Δ.FitsExpr (.function keyword fn) env) :
    Δ.FitsValue (.function { name := [], kind := .function, fn, frame := env }) := by
  obtain ⟨p, e₀, h, heq⟩ := h
  cases e₀ <;> cases heq
  exact ⟨p.inFunction .function, _, h.of_mem_parts List.mem_cons_self, rfl⟩

/-- What is evaluated first for an expression that fits, and what waits for its value. -/
theorem FitsExpr.part {e e' : Expr Address} {q : Pending} (he : Δ.FitsExpr e env)
    (hq : e.part? env = some (e', q)) : Δ.FitsPending q ∧ Δ.FitsExpr e' env := by
  obtain ⟨p, e₀, h, rfl⟩ := he
  have part : ∀ {y : Expr Unit}, ⟨p, .expr y⟩ ∈ e₀.parts p →
      Δ.FitsExpr (y.resolve p.around p.scopes).1 env :=
    fun hy => ⟨p, _, h.of_mem_parts hy, rfl⟩
  cases e₀ with
  | unary op mark operand | get operand mark =>
    cases hq
    exact ⟨trivial, part (by simp)⟩
  | binary op mark left right | logical op mark left right | set left mark right =>
    cases hq
    have hright := part (y := right) (by simp)
    exact ⟨hright, part (by simp)⟩
  | conditional condition yes no =>
    cases hq
    have hyes := part (y := yes) (by simp)
    have hno := part (y := no) (by simp)
    exact ⟨⟨hyes, hno⟩, part (by simp)⟩
  | assign mark _ value =>
    cases hq
    exact ⟨⟨p, value, h, rfl⟩, part (by simp)⟩
  | call callee paren arguments =>
    cases hq
    -- the arguments wait for the callee, and each for those before it
    refine ⟨fun e he => ?_, part (by simp)⟩
    obtain ⟨e₀, hmem, rfl⟩ := Expr.exists_of_mem_resolveAll he
    exact part (List.mem_cons_of_mem _ (List.mem_map_of_mem hmem))
  | _ => cases hq

theorem FitsPending.call {p : Pending} {callee : Value} {paren : Mark} {done : List Value}
    {more : List (Expr Address)} (hp : Δ.FitsPending p) (hv : Δ.FitsValue v)
    (h : p.call? v = some (callee, paren, done, more, env)) :
    Δ.FitsValue callee ∧ (∀ v ∈ done, Δ.FitsValue v) ∧ ∀ e ∈ more, Δ.FitsExpr e env := by
  rcases Pending.eq_of_call? h with ⟨rfl, rfl, rfl⟩ | ⟨before, rfl, rfl⟩
  · exact ⟨hv, List.forall_mem_nil _, hp⟩
  · exact ⟨hp.1, List.forall_mem_cons.mpr ⟨hv, hp.2.1⟩, hp.2.2⟩

/-! ### Statements -/

/-- What a condition governs fits where the condition does: neither part declares anything. -/
theorem Stands.fitsUse {p : Position} {condition : Expr Unit} {yes : Stmt Unit}
    {no : Option (Stmt Unit)} (h : Δ.Stands none ⟨p, .stmt (.branch condition yes no)⟩ p env) :
    Δ.FitsUse (.branch (yes.resolve p.around p.scopes).1
      (no.map fun no => (no.resolve p.around (p.after yes).scopes).1) env) := by
  have hregular : (Part.stmt (.branch condition yes no)).Regular := h.regular _ (.refl _)
  have hyes : Δ.Stands none ⟨p, .stmt yes⟩ p env :=
    h.of_mem_parts (by cases no <;> simp [Site.parts])
  refine ⟨⟨⟨p, yes, hyes, rfl⟩, by simpa using hregular.1⟩, ?_⟩
  rintro s hs
  obtain ⟨no, rfl, rfl⟩ := Option.map_eq_some_iff.mp hs
  have hafter : p.after yes = p := by
    rw [p.after_eq yes hyes.regular, hregular.1]
    rfl
  have hno : Δ.Stands none ⟨p.after yes, .stmt no⟩ p env := h.of_mem_parts (by simp [Site.parts])
  have hno' := hno.imp (q := p.after yes) fun _ hf => by rw [hafter]; exact hf
  exact ⟨⟨p.after yes, no, hno', rfl⟩, (Stmt.declares?_resolve _ _ no).trans (hregular.2 no rfl)⟩

/-- What is evaluated for a statement that fits, and what it does with the value. -/
theorem FitsStmt.part {s : Stmt Address} {e : Expr Address} {u : Use} (hs : Δ.FitsStmt s env)
    (hu : s.part? env = some (e, u)) :
    Δ.FitsUse u ∧ Δ.FitsExpr e env ∧ u.gain = s.declares?.map (env, ·) := by
  obtain ⟨p, s₀, h, rfl⟩ := hs
  have expr : ∀ {e : Expr Unit}, ⟨p, .expr e⟩ ∈ s₀.parts p →
      Δ.FitsExpr (e.resolve p.around p.scopes).1 env :=
    fun he => ⟨p, _, h.of_mem_parts he, rfl⟩
  cases s₀ with
  | expression e | print e =>
    cases hu
    exact ⟨trivial, expr (by simp), rfl⟩
  | varDecl name initial =>
    cases initial with
    | none => cases hu
    | some initial =>
      cases hu
      -- the name is declared around its initializer, but not ready and so not yet expected
      have hinitial := (h.of_mem_parts (z := ⟨p.enter name.lexeme false, .expr initial⟩)
        (by simp [Site.parts])).imp (q := p.enter name.lexeme false)
        fun _ hf => hf.enter_unready name.lexeme
      exact ⟨trivial, ⟨_, initial, hinitial, rfl⟩, rfl⟩
  | branch condition yes no =>
    have hbranch := h.fitsUse
    cases no with
    | none | some no =>
      cases hu
      exact ⟨hbranch, expr (by simp), rfl⟩
  | loop condition body =>
    cases hu
    have hregular : (Part.stmt (.loop condition body)).Regular := h.regular _ (.refl _)
    have hbody : Δ.Stands none ⟨p.inLoop, .stmt body⟩ p env :=
      h.of_mem_parts (by simp [Site.parts])
    exact ⟨⟨expr (by simp), ⟨p.inLoop, body, hbody, rfl⟩,
      (Stmt.declares?_resolve _ _ body).trans hregular⟩, expr (by simp), rfl⟩
  | ret keyword value =>
    cases value with
    | none => cases hu
    | some e =>
      cases hu
      exact ⟨trivial, expr (by simp), rfl⟩
  | classDecl name superclass methods => cases superclass <;> cases hu
  | _ => cases hu

/-- What a declaration that fits binds. -/
theorem FitsStmt.binding {s : Stmt Address} (hs : Δ.FitsStmt s env) (hΔ : Δ.Sound)
    (hb : s.binding? env = some (x, v)) : s.declares? = some x ∧ (Δ.define env x v).FitsValue v := by
  obtain ⟨p, s₀, h, rfl⟩ := hs
  cases s₀ with
  | varDecl name initial =>
    cases initial with
    | none =>
      cases hb
      exact ⟨rfl, trivial⟩
    | some initial => cases hb
  | funDecl name f =>
    cases hb
    have hf := h.of_mem_parts
      (z := ⟨(p.enter name.lexeme true).inFunction .function, .fn f⟩) (by simp [Site.parts])
    -- the function may call itself: its own name is ready in its scopes, and bound by now
    exact ⟨rfl, _, f, hf.imp fun _ hf => (hf.enter_ready hΔ name.lexeme).mono hΔ (.define _ _ _ _)
      (.define _ _ _ _), rfl⟩
  | branch condition yes no => cases no <;> cases hb
  | ret keyword value => cases value <;> cases hb
  | classDecl name superclass methods => cases superclass <;> cases hb
  | _ => cases hb

theorem FitsStmt.of_block {body : List (Stmt Address)} (h : Δ.FitsStmt (.block body) env) :
    ∃ p body₀, Δ.Stands none ⟨p, .stmt (.block body₀)⟩ p env ∧
      body = (Stmt.resolveAll p.around (∅ :: p.scopes) body₀).1 := by
  obtain ⟨p, s₀, h, heq⟩ := h
  obtain rfl : s₀ = .block (Stmt.mapAll (fun _ => ()) body) := by
    rw [← s₀.erase_resolve p.around p.scopes, ← heq, Stmt.map]
  exact ⟨p, _, h, Stmt.block.inj heq⟩

theorem FitsStmt.of_classDecl {name : Mark} {superclass : Option (Mark × Address)}
    {methods : List (Method Address)} (h : Δ.FitsStmt (.classDecl name superclass methods) env) :
    ∃ p superclass₀ methods₀, Δ.Stands none ⟨p, .stmt (.classDecl name superclass₀ methods₀)⟩ p env ∧
      superclass.isSome = superclass₀.isSome ∧
      methods = (Method.resolveAll ((p.enter name.lexeme true).methods superclass₀ methods₀).around
        ((p.enter name.lexeme true).methods superclass₀ methods₀).scopes [] methods₀).1 := by
  obtain ⟨p, s₀, h, heq⟩ := h
  have herase := s₀.erase_resolve p.around p.scopes
  rw [← heq] at herase
  cases superclass <;>
  · rw [Stmt.map] at herase
    subst herase
    exact ⟨p, _, _, h, rfl, (Stmt.classDecl.inj heq).2.2⟩

/-- The statements of a block that fits can run in a new frame. -/
theorem FitsStmt.block {body : List (Stmt Address)} (hs : Δ.FitsStmt (.block body) env)
    (hΔ : Δ.Sound) :
    (Δ.push (.block body) (some env) []).FitsStmts none body Δ.store.frames.size := by
  obtain ⟨p, body₀, h, rfl⟩ := hs.of_block
  have hready : ∀ x, (∅ : Scope).find? x = some true → x ∈ [].map (@Prod.fst Text Value) := by
    simp
  have hbody := (h.of_mem_parts (z := ⟨p.block body₀, .stmts body₀⟩) (by simp [Site.parts])).imp
    (q := p.block body₀) fun _ hf => hf.push hΔ hready
  exact ⟨_, body₀, hbody, rfl⟩

/-- The methods of a class fit a frame that fits around them. -/
theorem Stands.fitsMethod {p : Position} {name : Mark} {superclass : Option (Mark × Unit)}
    {methods : List (Method Unit)} {inner : FrameId}
    (h : Δ.Stands none ⟨p, .stmt (.classDecl name superclass methods)⟩ p env)
    (hf : ∀ source, Δ.Fits none source p.scopes p.opened env →
      Δ'.Fits none source ((p.enter name.lexeme true).methods superclass methods).scopes
        ((p.enter name.lexeme true).methods superclass methods).opened inner) :
    ∀ m ∈ (Method.resolveAll ((p.enter name.lexeme true).methods superclass methods).around
        ((p.enter name.lexeme true).methods superclass methods).scopes [] methods).1,
      ∀ c : Closure, c.fn = m.fn → c.frame = inner → Δ'.FitsMethod c := by
  rintro m hm c hfn rfl
  obtain ⟨m₀, hmem, heq⟩ := Method.exists_of_mem_resolveAll hm
  have hsite := h.of_mem_parts (List.mem_append_right _ (List.mem_map_of_mem hmem))
  exact ⟨_, m₀, hsite.imp hf, hfn.trans heq⟩

end Setting

/-! ### States -/

/-- The setting of a world. -/
abbrev World.setting (w : World) (sources : List Text) (origins : List Origin) : Setting :=
  ⟨sources, origins, w.store⟩

/-- Everything in the store and in the state fits. -/
def State.Agrees (sources : List Text) (origins : List Origin) (st : State) : Prop :=
  (st.world.setting sources origins).Sound ∧ st.Fits (st.world.setting sources origins)

namespace State

variable {host : Host} {sources : List Text} {origins : List Origin} {w : World} {env : FrameId}
  {demand : Demand} {rest : List Resume} {v : Value}

theorem Agrees.append_nil {st : State} (h : st.Agrees sources origins) {opened : List Origin}
    (ho : opened = []) : st.Agrees sources (origins ++ opened) := by
  rw [ho, List.append_nil]
  exact h

theorem agrees_normal (hs : (w.setting sources origins).Sound)
    (hr : (w.setting sources origins).FitsRest none rest) :
    (flow .normal rest w).Agrees sources origins := by
  refine ⟨hs, ?_, hr⟩
  rintro v ⟨⟩

/-- A statement ends with a definition. -/
theorem agrees_define {x : Text} (hs : (w.setting sources origins).Sound)
    (hv : ((w.setting sources origins).define env x v).FitsValue v)
    (hr : (w.setting sources origins).FitsRest (some (env, x)) rest) :
    (flow .normal rest (w.define env x v)).Agrees sources origins :=
  agrees_normal (hs.define hv)
    (Setting.FitsRest.mono hs (.define _ _ _ _) hr (.define _ _ _ _))

/-! ### Values and calls -/

section Demand

variable (hs : (w.setting sources origins).Sound)
  (hd : (w.setting sources origins).FitsDemand demand)
  (hr : (w.setting sources origins).FitsRest demand.use.gain rest)

include hs hd hr

theorem agrees_bindMethod {method : Closure} {receiver : Value}
    (hm : (w.setting sources origins).FitsMethod method)
    (hv : (w.setting sources origins).FitsValue receiver) :
    (bindMethod method receiver demand rest w).Agrees sources
      (origins ++ [.receiver method.fn]) := by
  have hΔ := Setting.Extends.push (w.setting sources origins) (.receiver method.fn)
    (some method.frame) [("this", receiver)]
  refine ⟨hs.push (by rintro ⟨⟩) ?_, hm.bind hs receiver, Setting.FitsDemand.mono hs hΔ hd,
    Setting.FitsRest.mono hs hΔ hr (.refl _ _)⟩
  simpa using hv

theorem agrees_assign {x : Text} (hv : (w.setting sources origins).FitsValue v) :
    (value v demand rest (w.define env x v)).Agrees sources origins := by
  have hΔ := Setting.Extends.define (w.setting sources origins) env x v
  have hv := Setting.FitsValue.mono hs hΔ hv
  exact ⟨hs.define hv, hv, Setting.FitsDemand.mono hs hΔ hd,
    Setting.FitsRest.mono hs hΔ hr (.refl _ _)⟩

theorem agrees_value_of_frames_eq {store : Store} (hf : store.frames = w.store.frames)
    (hall : store.All (w.setting sources origins).FitsValue (w.setting sources origins).FitsMethod)
    (hv : (w.setting sources origins).FitsValue v) :
    (value v demand rest { w with store }).Agrees sources origins := by
  have hΔ := Setting.Extends.of_frames_eq (Δ := w.setting sources origins) hf
  exact ⟨hs.of_frames_eq hf hall, Setting.FitsValue.mono hs hΔ hv,
    Setting.FitsDemand.mono hs hΔ hd, Setting.FitsRest.mono hs hΔ hr (.refl _ _)⟩

theorem agrees_entered {closure : Closure} {arguments : List Value}
    (hc : (w.setting sources origins).FitsClosure closure)
    (ha : ∀ v ∈ arguments, (w.setting sources origins).FitsValue v)
    (hlen : arguments.length = closure.fn.arity) :
    (entered closure arguments demand rest w).Agrees sources (origins ++ [.call closure.fn]) := by
  have hΔ := Setting.Extends.push (w.setting sources origins) (.call closure.fn)
    (some closure.frame) ((closure.fn.params.map Mark.lexeme).zip arguments)
  have hnames : ((closure.fn.params.map Mark.lexeme).zip arguments).map Prod.fst =
      closure.fn.params.map Mark.lexeme :=
    List.map_fst_zip (by simp [hlen, Function.arity])
  refine ⟨hs.push (by rintro ⟨⟩) fun b hb => ha _ (List.of_mem_zip hb).2, ?_,
    .block (hc.body hs hnames) (.call (Setting.FitsDemand.mono hs hΔ hd)
      (Setting.FitsRest.mono hs hΔ hr (.refl _ _)))⟩
  intro v hv
  cases hv

/-- An initializer has its receiver and runs. -/
theorem agrees_construct {c : ClassId} {arguments : List Value} {method : Closure}
    (ha : ∀ v ∈ arguments, (w.setting sources origins).FitsValue v)
    (hm : w.store.findMethod c "init" = some method) (hlen : arguments.length = method.fn.arity) :
    Setting.Sound ⟨sources, origins ++ [.receiver method.fn], initialized w.store c method⟩ ∧
    (entered { method with frame := w.store.frames.size } arguments demand rest
      { w with store := initialized w.store c method }).Agrees sources
      (origins ++ [.receiver method.fn, .call method.fn]) := by
  have hΔ : (w.setting sources origins).Extends ⟨sources, origins, (w.store.newInstance c).2⟩ :=
    .of_frames_eq rfl
  have hs' : Setting.Sound ⟨sources, origins, (w.store.newInstance c).2⟩ :=
    hs.of_frames_eq rfl (hs.contents.newInstance c)
  have hd' := Setting.FitsDemand.mono hs hΔ hd
  have hr' := Setting.FitsRest.mono hs hΔ hr (.refl _ _)
  have hmethod := Setting.FitsMethod.mono hs hΔ (hs.contents.findMethod hm)
  -- the receiver of the initializer comes first, then its body
  have hΔ' := Setting.Extends.push ⟨sources, origins, (w.store.newInstance c).2⟩
    (.receiver method.fn) (some method.frame) [("this", .instanceRef w.store.instances.size)]
  have hbound : Setting.Sound
      ⟨sources, origins ++ [.receiver method.fn], initialized w.store c method⟩ :=
    hs'.push (by rintro ⟨⟩) (by simp [Setting.FitsValue])
  refine ⟨hbound, ?_⟩
  rw [← List.singleton_append, ← List.append_assoc]
  exact agrees_entered (w := { w with store := initialized w.store c method }) hbound
    (Setting.FitsDemand.mono hs' hΔ' hd') (Setting.FitsRest.mono hs' hΔ' hr' (.refl _ _))
    (hmethod.bind hs' _)
    (fun v hv => Setting.FitsValue.mono hs' hΔ' (Setting.FitsValue.mono hs hΔ (ha v hv))) hlen

end Demand

/-! ### Declarations -/

/-- A class declaration, once the frame of its methods is there. -/
theorem agrees_classFrame {name : Mark} {superclass : Option (Mark × Address)}
    {methods : List (Method Address)} {c? : Option ClassId}
    (hs : (w.setting sources origins).Sound)
    (hr : (w.setting sources origins).FitsRest (some (env, name.lexeme)) rest)
    (h : (w.setting sources origins).FitsStmt (.classDecl name superclass methods) env)
    (hfind : findSuperclass w.store env superclass = .ok c?) :
    let Δ := (classFrame w name env c?).2.setting sources
      (origins ++ if c?.isSome then [.superclass methods] else [])
    Δ.Sound ∧ Δ.FitsRest none rest ∧ ∀ m ∈ methods, ∀ c : Closure, c.fn = m.fn →
      c.frame = (classFrame w name env c?).1 → Δ.FitsMethod c := by
  obtain ⟨p, superclass₀, methods₀, hstands, hsome, rfl⟩ := h.of_classDecl
  -- the name of the class is bound before its methods are created
  have hΔ := Setting.Extends.define (w.setting sources origins) env name.lexeme .nil
  have hs' := hs.define (e := env) (x := name.lexeme) (v := .nil) trivial
  have hr' := Setting.FitsRest.mono hs hΔ hr (.define _ _ _ _)
  have hf : ∀ source, (w.setting sources origins).Fits none source p.scopes p.opened env →
      ((w.setting sources origins).define env name.lexeme .nil).Fits none source
        (p.scopes.enter name.lexeme true) p.opened env :=
    fun source hf => (hf.enter_ready hs name.lexeme).mono hs hΔ (.define _ _ _ _)
  cases superclass₀ with
  | none =>
    obtain rfl : superclass = none := by simpa using hsome
    cases hfind
    rw [Option.isSome_none, if_neg (by decide), List.append_nil]
    exact ⟨hs', hr', hstands.fitsMethod hf⟩
  | some super =>
    obtain ⟨super', rfl⟩ := Option.isSome_iff_exists.mp hsome
    cases c? with
    | none =>
      unfold findSuperclass at hfind
      dsimp only at hfind
      split at hfind <;> cases hfind
    | some c =>
      refine ⟨hs'.push (by rintro ⟨⟩) (by simp [Setting.FitsValue]),
        Setting.FitsRest.mono hs' (.push _ _ (some env) [("super", .classRef c)]) hr' (.refl _ _),
        hstands.fitsMethod ?_⟩
      exact fun source hfits =>
        (hf source hfits).push hs' fun x hx => by simp [Table.eq_of_find?_single hx]

/-- The end of a class declaration. -/
theorem agrees_newClass {name : Mark} {superclass : Option ClassId} {table : Table Closure}
    (hs : (w.setting sources origins).Sound)
    (hr : (w.setting sources origins).FitsRest none rest)
    (ht : table.All (w.setting sources origins).FitsMethod) :
    (flow .normal rest (World.define
      { w with store := (w.store.newClass name.lexeme superclass table).2 } env name.lexeme
      (.classRef (w.store.newClass name.lexeme superclass table).1))).Agrees sources origins := by
  have hf := Store.frames_newClass w.store name.lexeme superclass table
  have hΔ : (w.setting sources origins).Extends
      ⟨sources, origins, (w.store.newClass name.lexeme superclass table).2⟩ := .of_frames_eq hf
  have hs' : Setting.Sound ⟨sources, origins, (w.store.newClass name.lexeme superclass table).2⟩ :=
    hs.of_frames_eq hf (hs.contents.newClass name.lexeme superclass ht)
  have hr' := Setting.FitsRest.mono hs hΔ hr (.refl _ _)
  exact agrees_normal (hs'.define trivial)
    (Setting.FitsRest.mono hs' (.define _ _ _ _) hr' (.refl _ _))

/-- A module runs in globals of its own, and what waits for it counts on its name. -/
theorem agrees_load {path : Token} {asName : Option Mark} {file source : Text}
    {program : Program Address} {events : List Event} (hs : (w.setting sources origins).Sound)
    (hr : (w.setting sources origins).FitsRest (some (env, Import.name path asName)) rest)
    (hp : Program.ofSource source = .ok program) :
    (flow .normal
      (.program program w.store.frames.size :: .importing (loading w path asName file env) :: rest)
      { w with store := w.store.newGlobals.2, depth := w.depth + 1, echo := false, events }).Agrees
      sources (origins ++ [.imported source]) := by
  obtain ⟨tree, ha, rfl⟩ := Program.Accepted.of_ofSource hp
  let natives := NativeFunction.all.map fun fn => (fn.name, Value.native fn)
  have hΔ := Setting.Extends.push (w.setting sources origins) (.imported source) none natives
  have hs' : ((w.setting sources origins).push (.imported source) none natives).Sound :=
    hs.push (fun _ => rfl) (by simp [natives, Setting.FitsValue])
  refine ⟨hs', ?_, .program ⟨{}, tree, ⟨source, tree, ha, .refl _, ?_⟩, rfl⟩
    (.importing (Setting.FitsRest.mono hs hΔ hr (.refl _ _)))⟩
  · rintro v ⟨⟩
  · exact .globals (Or.inr (hs.origin_push _ _ _))

/-! ### Steps and runs -/

/-- One step keeps everything fitting, and the account of frames complete. -/
theorem Agrees.step {st : State} (h : st.Agrees sources origins) (host : Host) :
    (st.step host).Agrees sources (origins ++ st.opens host) := by
  obtain ⟨hs, h⟩ := h
  have hmove := moves_step host st
  generalize st.opens host = opened, st.step host = st' at hmove
  cases hmove <;> try rw [List.append_nil]
  -- expressions
  case literal => exact ⟨hs, .of_ne (Value.isPlain_ofLiteral _).ne_function, h.2⟩
  case function => exact ⟨hs, h.1.function, h.2⟩
  case group => exact ⟨hs, h.1.group, h.2⟩
  case part hp =>
    obtain ⟨hpending, he⟩ := h.1.part hp
    exact ⟨hs, he, h.2.1.push hpending, h.2.2⟩
  case read hv => exact ⟨hs, hs.contents.read hv, h.2⟩
  case inherited hthis hm =>
    exact agrees_bindMethod hs h.2.1 h.2.2 (hs.contents.inherited hm) (hs.contents.getAt hthis)
  -- operators and properties
  case unary hv => exact ⟨hs, .of_ne hv.ne_function, h.2.1.pop.2, h.2.2⟩
  case left | object => exact ⟨hs, h.2.1.pop.1, h.2.1.pop.2.push h.1, h.2.2⟩
  case right hv =>
    refine ⟨hs, ?_, h.2.1.pop.2, h.2.2⟩
    rcases hv with rfl | hv
    · exact h.1
    · exact .of_ne hv.ne_function
  case decided => exact ⟨hs, h.1, h.2.1.pop.2, h.2.2⟩
  case undecided => exact ⟨hs, h.2.1.pop.1, h.2.1.pop.2, h.2.2⟩
  case chosen he =>
    refine ⟨hs, ?_, h.2.1.pop.2, h.2.2⟩
    rcases he with rfl | rfl
    · exact h.2.1.pop.1.1
    · exact h.2.1.pop.1.2
  case assign => exact agrees_assign hs h.2.1.pop.2 h.2.2 h.1
  case field hp => exact ⟨hs, hs.contents.of_property_eq_value hp, h.2.1.pop.2, h.2.2⟩
  case method hp =>
    exact agrees_bindMethod hs h.2.1.pop.2 h.2.2 (hs.contents.of_property_eq_method hp) h.1
  case setClass =>
    exact agrees_value_of_frames_eq hs h.2.1.pop.2 h.2.2 rfl (hs.contents.setClassField _ _ h.1) h.1
  case setInstance =>
    exact agrees_value_of_frames_eq hs h.2.1.pop.2 h.2.2 rfl
      (hs.contents.setInstanceField _ _ h.1) h.1
  -- calls
  case argument hp =>
    obtain ⟨hc, hdone, hmore⟩ := h.2.1.pop.1.call h.1 hp
    obtain ⟨he, hmore⟩ := List.forall_mem_cons.mp hmore
    exact ⟨hs, he, h.2.1.pop.2.push ⟨hc, hdone, hmore⟩, h.2.2⟩
  case call hp hlen _ =>
    obtain ⟨hc, hdone, -⟩ := h.2.1.pop.1.call h.1 hp
    exact agrees_entered hs h.2.1.pop.2 h.2.2 hc (fun v hv => hdone v (List.mem_reverse.mp hv))
      (List.length_reverse.trans hlen)
  case clock => exact ⟨hs, trivial, h.2.1.pop.2, h.2.2⟩
  case readInput hread =>
    exact ⟨hs, .of_ne (NativeFunction.isPlain_of_read? hread).ne_function, h.2.1.pop.2, h.2.2⟩
  case newInstance =>
    exact agrees_value_of_frames_eq hs h.2.1.pop.2 h.2.2 rfl (hs.contents.newInstance _) trivial
  case construct hp hm hlen _ =>
    obtain ⟨-, hdone, -⟩ := h.2.1.pop.1.call h.1 hp
    exact (agrees_construct hs h.2.1.pop.2 h.2.2 (fun v hv => hdone v (List.mem_reverse.mp hv)) hm
      (List.length_reverse.trans hlen)).2
  case constructOverflow hp hm hlen _ =>
    obtain ⟨-, hdone, -⟩ := h.2.1.pop.1.call h.1 hp
    exact ⟨(agrees_construct hs h.2.1.pop.2 h.2.2 (fun v hv => hdone v (List.mem_reverse.mp hv)) hm
      (List.length_reverse.trans hlen)).1, trivial⟩
  -- statements that have their value
  case shown hu hw =>
    rcases hu with rfl | rfl <;> rcases hw with rfl | rfl <;> exact agrees_normal hs h.2.2
  case defined =>
    exact agrees_define hs (Setting.FitsValue.mono hs (.define _ _ _ _) h.1) h.2.2
  case branch hstmt =>
    obtain ⟨hyes, hno⟩ := h.2.1.2
    rcases hstmt with rfl | hsome
    · exact ⟨hs, hyes.1, by rw [hyes.2]; exact h.2.2⟩
    · obtain ⟨hstmt, hdecl⟩ := hno _ hsome
      exact ⟨hs, hstmt, by rw [hdecl]; exact h.2.2⟩
  case round =>
    obtain ⟨hc, hb, hdecl⟩ := h.2.1.2
    exact ⟨hs, hb, by rw [hdecl]; exact .loop hc hb hdecl h.2.2⟩
  case noBranch | noRound => exact agrees_normal hs h.2.2
  case result =>
    refine ⟨hs, ?_, h.2.2⟩
    rintro _ ⟨⟩
    exact h.1
  -- statements
  case demand hp _ =>
    obtain ⟨hu, he, hgain⟩ := h.1.part hp
    exact ⟨hs, he, .ofUse hu, hgain ▸ h.2⟩
  case bind hp _ =>
    obtain ⟨hdecl, hv⟩ := h.1.binding hs hp
    have hr := h.2
    rw [hdecl] at hr
    exact agrees_define hs hv hr
  case block body env rest w =>
    have hΔ := Setting.Extends.push (w.setting sources origins) (.block body) (some env) []
    exact agrees_normal (hs.push (by rintro ⟨⟩) (List.forall_mem_nil _))
      (.block (h.1.block hs) (Setting.FitsRest.mono hs hΔ h.2 (.refl _ _)))
  case ret =>
    refine ⟨hs, ?_, h.2⟩
    rintro _ ⟨⟩
    trivial
  case brk =>
    refine ⟨hs, ?_, h.2⟩
    rintro _ ⟨⟩
  case declareClass hfind htable =>
    obtain ⟨hs, hr, hmethods⟩ := agrees_classFrame hs h.2 h.1 hfind
    refine agrees_newClass hs hr (all_of_declareMethods ?_ .empty htable)
    rintro c hc ⟨m, hm, hfn⟩
    exact hmethods m hm c hfn hc
  case repeatMethod hfind _ => exact ⟨(agrees_classFrame hs h.2 h.1 hfind).1, trivial⟩
  case load hp _ => exact agrees_load hs h.2 hp
  -- statements that have finished
  case next =>
    cases h.2 with
    | block hss hrest =>
      obtain ⟨hfirst, hothers⟩ := hss.cons hs
      exact ⟨hs, hfirst, .block hothers hrest⟩
  case nextTop =>
    cases h.2 with
    | program hss hrest =>
      obtain ⟨hfirst, hothers⟩ := hss.cons hs
      exact ⟨hs, hfirst, .program hothers hrest⟩
  case leave => cases h.2 with | block _ hrest => exact ⟨hs, h.1, hrest⟩
  case again =>
    cases h.2 with
    | loop hc hb hdecl hrest => exact ⟨hs, hc, .ofUse ⟨hc, hb, hdecl⟩, hrest⟩
  case broke => cases h.2 with | loop _ _ _ hrest => exact agrees_normal hs hrest
  case returned => cases h.2 with | loop _ _ _ hrest => exact ⟨hs, h.1, hrest⟩
  case leaveTop => cases h.2 with | program _ hrest => exact agrees_normal hs hrest
  case answer =>
    cases h.2 with
    | call hd hrest => exact ⟨hs, callResult_of_all hs.contents _ trivial h.1, hd, hrest⟩
  case imported => cases h.2 with | importing hrest => exact agrees_define hs trivial hrest
  -- failures and ends
  case unwind f r _ _ => cases r <;> exact ⟨hs, trivial⟩
  case ended => exact ⟨hs, h⟩
  all_goals exact ⟨hs, trivial⟩

/-- A run keeps everything fitting, and the account of frames complete. -/
theorem Agrees.run {st : State} (h : st.Agrees sources origins) (host : Host) (n : Nat) :
    (State.run host n st).Agrees sources (origins ++ State.opened host n st) := by
  induction n generalizing st origins with
  | zero => exact .append_nil h rfl
  | succ n ih =>
    -- the run goes on from the next step, with what that step opened on the account
    unfold State.run State.opened
    split
    · exact .append_nil h rfl
    · rw [← List.append_assoc]
      exact ih (h.step host)

end State

end Lox
