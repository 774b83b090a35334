import Lox.Machine.Step
import Lox.Proofs.Scope.Accepted
import Lox.Proofs.Store.Growth

/-!
# Settings

A setting is what a run has come to: the sources that have run, what each frame was opened for, and
the store. In a setting, a frame fits a position of a tree if it and the frames around it were
opened for the scopes that the resolver has open there, one for each, with the globals of the tree's
own program or module around them all. This module says what it means for a state that everything in
it fits, and that nothing ceases to fit when the setting grows.

## Design notes

A scope lists names in the order of the text, a frame binds them in the order of the run. The two
meet in what a statement is about to bind: while it runs, what comes after it counts on one more
name than is bound (`gain`). The gain concerns only what comes first after the statement; whatever
comes later counts only on names that are already bound.
-/

namespace Lox

/-- What a run has come to. -/
structure Setting where
  sources : List Text
  origins : List Origin
  store : Store

/-- A name that is about to be bound in a frame. -/
abbrev Gain := Option (FrameId × Text)

namespace Setting

/-- A source runs in a frame of globals: that of the session or that of an import of it. -/
def Runs (Δ : Setting) (source : Text) (g : FrameId) : Prop :=
  Δ.origins[g]? = some .session ∧ source ∈ Δ.sources ∨ Δ.origins[g]? = some (.imported source)

/-- A frame fits scopes with their origins, innermost first: it was opened for the first of them and
binds, or is about to bind, the names that are ready there; the frame around it fits the others, and
the globals of a source come last. -/
inductive Fits (Δ : Setting) (gain : Gain) (source : Text) : Scopes → List Origin → FrameId → Prop
  | globals {g : FrameId} : Δ.Runs source g → Fits Δ gain source [] [] g
  | frame {scope : Scope} {scopes : Scopes} {origin : Origin} {opened : List Origin}
      {e outer : FrameId} :
      Δ.origins[e]? = some origin → Δ.store.parent? e = some outer → outer < e →
      (∀ x, scope.find? x = some true → Δ.store.binds e x ∨ gain = some (e, x)) →
      Fits Δ gain source scopes opened outer →
      Fits Δ gain source (scope :: scopes) (origin :: opened) e

/-- A site of an accepted tree, and a frame that fits a position. -/
def Stands (Δ : Setting) (gain : Gain) (x : Site) (p : Position) (e : FrameId) : Prop :=
  ∃ source tree, Program.Accepted source tree ∧ (Site.ofProgram tree).Visits x ∧
    Δ.Fits gain source p.scopes p.opened e

/-! ### What fits -/

/-- An expression is that of a site, to be evaluated in a frame that fits there. -/
def FitsExpr (Δ : Setting) (e : Expr Address) (env : FrameId) : Prop :=
  ∃ p e₀, Δ.Stands none ⟨p, .expr e₀⟩ p env ∧ e = (e₀.resolve p.around p.scopes).1

/-- A statement is that of a site, to be executed in a frame that fits there. -/
def FitsStmt (Δ : Setting) (s : Stmt Address) (env : FrameId) : Prop :=
  ∃ p s₀, Δ.Stands none ⟨p, .stmt s₀⟩ p env ∧ s = (s₀.resolve p.around p.scopes).1

/-- Statements are those of a site, to be executed in a frame that fits there. -/
def FitsStmts (Δ : Setting) (gain : Gain) (ss : List (Stmt Address)) (env : FrameId) : Prop :=
  ∃ p ss₀, Δ.Stands gain ⟨p, .stmts ss₀⟩ p env ∧ ss = (Stmt.resolveAll p.around p.scopes ss₀).1

/-- A function is that of a site, and its frame fits there. -/
def FitsClosure (Δ : Setting) (c : Closure) : Prop :=
  ∃ p f, Δ.Stands none ⟨p, .fn f⟩ p c.frame ∧ c.fn = (f.resolve p.around p.scopes).1

/-- A method is that of a site, and its frame fits around the scope of the receiver. -/
def FitsMethod (Δ : Setting) (c : Closure) : Prop :=
  ∃ p m, Δ.Stands none ⟨p.method m, .fn m.fn⟩ p c.frame ∧
    c.fn = (m.fn.resolve (p.method m).around (p.method m).scopes).1

/-- A value fits if it is no function or fits as one. -/
def FitsValue (Δ : Setting) : Value → Prop
  | .function c => Δ.FitsClosure c
  | _ => True

/-- An assignment is that of a site, to be carried out in a frame that fits there. -/
def FitsAssign (Δ : Setting) (mark : Mark) (ref : Address) (env : FrameId) : Prop :=
  ∃ p v, Δ.Stands none ⟨p, .expr (.assign mark () v)⟩ p env ∧ ref = p.scopes.address mark.lexeme

/-- What waits for a value fits. -/
def FitsPending (Δ : Setting) : Pending → Prop
  | .unary _ _ => True
  | .left _ _ right env => Δ.FitsExpr right env
  | .right _ _ left => Δ.FitsValue left
  | .logical _ right env => Δ.FitsExpr right env
  | .conditional yes no env => Δ.FitsExpr yes env ∧ Δ.FitsExpr no env
  | .assign mark ref env => Δ.FitsAssign mark ref env
  | .get _ => True
  | .setObject _ value env => Δ.FitsExpr value env
  | .setValue object _ => Δ.FitsValue object
  | .callee _ arguments env => ∀ e ∈ arguments, Δ.FitsExpr e env
  | .argument callee _ done rest env =>
    Δ.FitsValue callee ∧ (∀ v ∈ done, Δ.FitsValue v) ∧ ∀ e ∈ rest, Δ.FitsExpr e env

/-- What a statement does with a value fits; what a condition governs declares nothing. -/
def FitsUse (Δ : Setting) : Use → Prop
  | .branch yes no env =>
    (Δ.FitsStmt yes env ∧ yes.declares? = none) ∧
      ∀ s ∈ no, Δ.FitsStmt s env ∧ s.declares? = none
  | .test condition body env =>
    Δ.FitsExpr condition env ∧ Δ.FitsStmt body env ∧ body.declares? = none
  | _ => True

/-- Everything that waits for a value fits. -/
def FitsDemand (Δ : Setting) (d : Demand) : Prop :=
  (∀ p ∈ d.pending, Δ.FitsPending p) ∧ Δ.FitsUse d.use

end Setting

/-- What a statement that waits for a value is about to bind. -/
def Use.gain : Use → Gain
  | .define x env => some (env, x)
  | _ => none

namespace Setting

/-- What goes on after a statement fits, if the statement binds what it is about to bind. -/
inductive FitsRest (Δ : Setting) : Gain → List Resume → Prop
  | nil {gain : Gain} : FitsRest Δ gain []
  | block {gain : Gain} {ss : List (Stmt Address)} {env : FrameId} {rest : List Resume} :
      Δ.FitsStmts gain ss env → FitsRest Δ none rest → FitsRest Δ gain (.block ss env :: rest)
  | loop {gain : Gain} {condition : Expr Address} {body : Stmt Address} {env : FrameId}
      {rest : List Resume} :
      Δ.FitsExpr condition env → Δ.FitsStmt body env → body.declares? = none →
      FitsRest Δ none rest → FitsRest Δ gain (.loop condition body env :: rest)
  | program {gain : Gain} {ss : List (Stmt Address)} {env : FrameId} {rest : List Resume} :
      Δ.FitsStmts gain ss env → FitsRest Δ none rest → FitsRest Δ gain (.program ss env :: rest)
  | call {gain : Gain} {closure : Closure} {demand : Demand} {rest : List Resume} :
      Δ.FitsDemand demand → FitsRest Δ demand.use.gain rest →
      FitsRest Δ gain (.call closure demand :: rest)
  | importing {gain : Gain} {i : Importing} {rest : List Resume} :
      FitsRest Δ (some (i.env, i.loaded.name)) rest → FitsRest Δ gain (.importing i :: rest)

/-- Every frame has an origin, globals stand alone, and everything in the store fits. -/
structure Sound (Δ : Setting) : Prop where
  size : Δ.origins.length = Δ.store.frames.size
  globals : ∀ {g : FrameId} {o}, Δ.origins[g]? = some o → o.isGlobal → Δ.store.parent? g = none
  contents : Δ.store.All Δ.FitsValue Δ.FitsMethod

end Setting

/-- Everything in a state fits. A state that fails has nothing left to do. -/
def State.Fits (Δ : Setting) : State → Prop
  | eval e env demand rest _ =>
    Δ.FitsExpr e env ∧ Δ.FitsDemand demand ∧ Δ.FitsRest demand.use.gain rest
  | value v demand rest _ =>
    Δ.FitsValue v ∧ Δ.FitsDemand demand ∧ Δ.FitsRest demand.use.gain rest
  | exec s env rest _ => Δ.FitsStmt s env ∧ Δ.FitsRest (s.declares?.map (env, ·)) rest
  | flow f rest _ => (∀ v, f = .returned v → Δ.FitsValue v) ∧ Δ.FitsRest none rest
  | fail _ _ _ => True

/-! ### Growth -/

namespace Setting

/-- A setting that has come out of another. -/
structure Extends (Δ Δ' : Setting) : Prop where
  sources : Δ.sources ⊆ Δ'.sources
  origins : ∀ {e : FrameId} {o}, Δ.origins[e]? = some o → Δ'.origins[e]? = some o
  store : Δ.store.Extends Δ'.store

variable {Δ Δ' Δ'' : Setting} {gain gain' : Gain} {source : Text} {scopes : Scopes}
  {opened : List Origin} {e env : FrameId} {x : Text}

theorem Extends.refl (Δ : Setting) : Δ.Extends Δ := ⟨fun _ => id, id, .refl _⟩

theorem Sound.lt_size (h : Δ.Sound) {o : Origin} (ho : Δ.origins[e]? = some o) :
    e < Δ.store.frames.size := by
  rw [← h.size]
  exact (List.getElem?_eq_some_iff.mp ho).1

theorem Runs.exists_origin {g : FrameId} (h : Δ.Runs source g) :
    ∃ o, Δ.origins[g]? = some o ∧ o.isGlobal := by
  rcases h with ⟨h, -⟩ | h
  · exact ⟨_, h, rfl⟩
  · exact ⟨_, h, rfl⟩

theorem Runs.mono {g : FrameId} (h : Δ.Runs source g) (hΔ : Δ.Extends Δ') : Δ'.Runs source g := by
  rcases h with ⟨h, hs⟩ | h
  · exact Or.inl ⟨hΔ.origins h, hΔ.sources hs⟩
  · exact Or.inr (hΔ.origins h)

theorem Fits.lt_size (h : Δ.Fits gain source scopes opened e) (hs : Δ.Sound) :
    e < Δ.store.frames.size := by
  cases h with
  | globals hr =>
    obtain ⟨o, ho, -⟩ := hr.exists_origin
    exact hs.lt_size ho
  | frame ho => exact hs.lt_size ho

/-- A gain that becomes smaller only by what a setting has come to bind. -/
def Settles (gain : Gain) (Δ' : Setting) (gain' : Gain) : Prop :=
  ∀ e x, gain = some (e, x) → e < Δ'.store.frames.size → Δ'.store.binds e x ∨ gain' = some (e, x)

theorem Settles.refl (gain : Gain) (Δ' : Setting) : Settles gain Δ' gain := fun _ _ h _ => Or.inr h

theorem Settles.of_none (Δ' : Setting) (gain' : Gain) : Settles none Δ' gain' := by
  intro _ _ h
  cases h

theorem Fits.mono (h : Δ.Fits gain source scopes opened e) (hs : Δ.Sound) (hΔ : Δ.Extends Δ')
    (hg : Settles gain Δ' gain') : Δ'.Fits gain' source scopes opened e := by
  induction h with
  | globals hr => exact .globals (hr.mono hΔ)
  | frame ho hp hlt hb _ ih =>
    have he := hs.lt_size ho
    refine .frame (hΔ.origins ho) ((hΔ.store.parent _ he).trans hp) hlt (fun x hx => ?_) ih
    -- what was about to be bound has been bound or is still about to be
    rcases hb x hx with hb | hb
    · exact Or.inl (hΔ.store.binds _ _ hb)
    · exact hg _ _ hb (Nat.lt_of_lt_of_le he hΔ.store.size)

theorem Stands.mono {y : Site} {p : Position} (h : Δ.Stands gain y p e) (hs : Δ.Sound)
    (hΔ : Δ.Extends Δ') (hg : Settles gain Δ' gain') : Δ'.Stands gain' y p e := by
  obtain ⟨source, tree, ha, hv, hf⟩ := h
  exact ⟨source, tree, ha, hv, hf.mono hs hΔ hg⟩

section Mono

variable (hs : Δ.Sound) (hΔ : Δ.Extends Δ')

include hs hΔ

theorem FitsExpr.mono {e : Expr Address} (h : Δ.FitsExpr e env) : Δ'.FitsExpr e env := by
  obtain ⟨p, e₀, h, he⟩ := h
  exact ⟨p, e₀, h.mono hs hΔ (.refl _ _), he⟩

theorem FitsStmt.mono {s : Stmt Address} (h : Δ.FitsStmt s env) : Δ'.FitsStmt s env := by
  obtain ⟨p, s₀, h, he⟩ := h
  exact ⟨p, s₀, h.mono hs hΔ (.refl _ _), he⟩

theorem FitsStmts.mono {ss : List (Stmt Address)} (h : Δ.FitsStmts gain ss env)
    (hg : Settles gain Δ' gain') : Δ'.FitsStmts gain' ss env := by
  obtain ⟨p, ss₀, h, he⟩ := h
  exact ⟨p, ss₀, h.mono hs hΔ hg, he⟩

theorem FitsMethod.mono {c : Closure} (h : Δ.FitsMethod c) : Δ'.FitsMethod c := by
  obtain ⟨p, m, h, he⟩ := h
  exact ⟨p, m, h.mono hs hΔ (.refl _ _), he⟩

theorem FitsValue.mono {v : Value} (h : Δ.FitsValue v) : Δ'.FitsValue v := by
  cases v with
  | function c =>
    obtain ⟨p, f, h, he⟩ := h
    exact ⟨p, f, h.mono hs hΔ (.refl _ _), he⟩
  | _ => trivial

theorem FitsPending.mono {p : Pending} (h : Δ.FitsPending p) : Δ'.FitsPending p := by
  cases p with
  | unary | get => trivial
  | left | logical | setObject => exact FitsExpr.mono hs hΔ h
  | right | setValue => exact FitsValue.mono hs hΔ h
  | conditional => exact ⟨FitsExpr.mono hs hΔ h.1, FitsExpr.mono hs hΔ h.2⟩
  | assign =>
    obtain ⟨p, v, h, hr⟩ := h
    exact ⟨p, v, h.mono hs hΔ (.refl _ _), hr⟩
  | callee => exact fun e he => FitsExpr.mono hs hΔ (h e he)
  | argument =>
    exact ⟨FitsValue.mono hs hΔ h.1, fun v hv => FitsValue.mono hs hΔ (h.2.1 v hv),
      fun e he => FitsExpr.mono hs hΔ (h.2.2 e he)⟩

theorem FitsUse.mono {u : Use} (h : Δ.FitsUse u) : Δ'.FitsUse u := by
  cases u with
  | branch =>
    exact ⟨⟨FitsStmt.mono hs hΔ h.1.1, h.1.2⟩,
      fun s hm => ⟨FitsStmt.mono hs hΔ (h.2 s hm).1, (h.2 s hm).2⟩⟩
  | test => exact ⟨FitsExpr.mono hs hΔ h.1, FitsStmt.mono hs hΔ h.2.1, h.2.2⟩
  | _ => trivial

theorem FitsDemand.mono {d : Demand} (h : Δ.FitsDemand d) : Δ'.FitsDemand d :=
  ⟨fun p hp => FitsPending.mono hs hΔ (h.1 p hp), FitsUse.mono hs hΔ h.2⟩

theorem FitsRest.mono {rest : List Resume} (h : Δ.FitsRest gain rest)
    (hg : Settles gain Δ' gain') : Δ'.FitsRest gain' rest := by
  -- only what comes first counts on the gain, so behind it there is none to settle
  induction h generalizing gain' with
  | nil => exact .nil
  | block hss _ ih => exact .block (FitsStmts.mono hs hΔ hss hg) (ih (.of_none _ _))
  | loop hc hb hd _ ih =>
    exact .loop (FitsExpr.mono hs hΔ hc) (FitsStmt.mono hs hΔ hb) hd (ih (.of_none _ _))
  | program hss _ ih => exact .program (FitsStmts.mono hs hΔ hss hg) (ih (.of_none _ _))
  | call hd _ ih => exact .call (FitsDemand.mono hs hΔ hd) (ih (.refl _ _))
  | importing _ ih => exact .importing (ih (.refl _ _))

end Mono

end Setting

end Lox
