import Lox.Proofs.Grammar.Declarations

/-!
# Methods with a superclass

The innermost class around a `super` has a superclass, or the resolver reports it. Between the scope
of the superclass and the `super` there are then the scope of the receiver, that of the method's
body, and those of blocks and functions in it. None of these has a name that is spelled like the
keyword, unless an import binds one. So the address of a `super` is that of the scope of the
superclass, and the scope of the receiver is the next one inside.
-/

namespace Lox

/-! ### Addresses -/

namespace Scopes

theorem address_cons (scope : Scope) (scopes : Scopes) (x : Text) :
    address (scope :: scopes) x =
      if scope.contains x then some 0 else (scopes.address x).map (· + 1) :=
  List.findIdx?_cons

theorem address_enter_of_ne {x y : Text} (h : y ≠ x) (scopes : Scopes) (ready : Bool) :
    (scopes.enter y ready).address x = scopes.address x := by
  cases scopes with
  | nil => rfl
  | cons scope outer =>
    have hscope : (scope.insert y ready).contains x = scope.contains x := by
      unfold Table.contains
      rw [Table.find?_insert_of_ne _ h.symm]
    simp only [enter, address_cons, hscope]

theorem address_enterParams {x : Text} {params : List Mark} (h : ∀ m ∈ params, m.lexeme ≠ x)
    (scopes : Scopes) : (scopes.enterParams params).1.address x = scopes.address x := by
  induction params generalizing scopes with
  | nil => rfl
  | cons m params ih =>
    obtain ⟨hm, hparams⟩ := List.forall_mem_cons.mp h
    exact (ih hparams _).trans (address_enter_of_ne hm scopes true)

end Scopes

/-! ### Positions -/

/-- Whether a scope is opened while a body is executed: for a block or for a function. -/
def Origin.isInner : Origin → Bool
  | block _ => true
  | call _ => true
  | _ => false

namespace Position

variable {p q : Position} {inner : List Origin} {fn : Function Address}
  {methods : List (Method Address)}

/-- The innermost method around a position is one of a class with a superclass: around the scopes
that are opened inside of it there are those of its receiver and of the superclass, and the latter
is what `super` refers to. -/
structure InMethod (p : Position) (inner : List Origin) (fn : Function Address)
    (methods : List (Method Address)) : Prop where
  opened : ∃ outer, p.opened = inner ++ .receiver fn :: .superclass methods :: outer
  within : ∀ o ∈ inner, o.isInner = true
  member : ∃ m ∈ methods, m.fn = fn
  address : p.scopes.address "super" = some (inner.length + 1)

/-- Two positions with the same scopes around them, as far as classes are concerned. -/
structure Alike (p q : Position) : Prop where
  opened : q.opened = p.opened
  inClass : q.around.inClass = p.around.inClass
  address : q.scopes.address "super" = p.scopes.address "super"

theorem alike_enter (p : Position) {x : Text} (h : x ≠ "super") (ready : Bool) :
    p.Alike (p.enter x ready) :=
  ⟨rfl, rfl, Scopes.address_enter_of_ne h p.scopes ready⟩

theorem InMethod.alike (h : p.InMethod inner fn methods) (hq : p.Alike q) :
    q.InMethod inner fn methods where
  opened := hq.opened ▸ h.opened
  within := h.within
  member := h.member
  address := hq.address.trans h.address

/-- One more scope is opened inside of the method. -/
theorem InMethod.push (h : p.InMethod inner fn methods) {o : Origin} (ho : o.isInner = true)
    (hopened : q.opened = o :: p.opened)
    (haddress : q.scopes.address "super" = (p.scopes.address "super").map (· + 1)) :
    q.InMethod (o :: inner) fn methods where
  opened := by
    obtain ⟨outer, heq⟩ := h.opened
    exact ⟨outer, by rw [hopened, heq, List.cons_append]⟩
  within := List.forall_mem_cons.mpr ⟨ho, h.within⟩
  member := h.member
  address := by rw [haddress, h.address]; rfl

theorem address_block (p : Position) (body : List (Stmt Unit)) :
    (p.block body).scopes.address "super" = (p.scopes.address "super").map (· + 1) :=
  Scopes.address_cons _ _ _

theorem address_body (p : Position) {f : Function Unit}
    (h : ∀ d ∈ f.declarations, d.name ≠ "super") :
    (p.body f).scopes.address "super" = (p.scopes.address "super").map (· + 1) := by
  obtain ⟨params, body⟩ := f
  refine (Scopes.address_enterParams (fun m hm => ?_) _).trans (Scopes.address_cons _ _ _)
  exact h (.named m.lexeme) (List.mem_append_left _ (List.mem_map_of_mem hm))

/-- A method of a class is among the resolved ones. -/
theorem exists_mem_resolveAll (p : Position) {m : Method Unit} {ms : List (Method Unit)}
    (hm : m ∈ ms) (seen : List Text) :
    ∃ m' ∈ (Method.resolveAll p.around p.scopes seen ms).1,
      m'.fn = (m.fn.resolve (p.method m).around (p.method m).scopes).1 := by
  induction ms generalizing seen with
  | nil => cases hm
  | cons m₀ ms ih =>
    obtain ⟨static, name, f⟩ := m₀
    rcases List.mem_cons.mp hm with rfl | hm
    · exact ⟨_, List.mem_cons_self, rfl⟩
    · obtain ⟨m', hmem, heq⟩ := ih hm (name.lexeme :: seen)
      exact ⟨m', List.mem_cons_of_mem _ hmem, heq⟩

/-- The receiver of a method of a class with a superclass. -/
theorem inMethod_method (p : Position) (super : Mark × Unit) {ms : List (Method Unit)}
    {m : Method Unit} (hm : m ∈ ms) :
    let q := (p.methods (some super) ms).method m
    ∃ methods, q.InMethod [] (m.fn.resolve q.around q.scopes).1 methods := by
  intro q
  refine ⟨_, ⟨_, rfl⟩, List.forall_mem_nil _, ?_, ?_⟩
  · exact exists_mem_resolveAll (p.methods (some super) ms) hm []
  · -- the scope of the receiver does not have the keyword, and the next one does
    have hthis : (Table.single "this" true : Scope).contains "super" = false := by decide
    have hsuper : (Table.single "super" true : Scope).contains "super" = true := by decide
    change Scopes.address (Table.single "this" true :: Table.single "super" true :: p.scopes) _ = _
    rw [Scopes.address_cons, hthis, Scopes.address_cons, hsuper]
    rfl

end Position

/-! ### Sites -/

/-- A site is a method of a class with a superclass, or stands in the body of one. -/
inductive Site.Inherits : Site → Prop
  | method {p : Position} {f : Function Unit} {methods : List (Method Address)} :
      p.InMethod [] (f.resolve p.around p.scopes).1 methods → Inherits ⟨p, .fn f⟩
  | body {p : Position} {part : Part} {fn : Function Address} {methods : List (Method Address)}
      (inner : List Origin) :
      p.InMethod (inner ++ [.call fn]) fn methods → Inherits ⟨p, part⟩

theorem Part.exists_declaration {part : Part} {x : Text} (h : part.declares? = some x) :
    ∃ d ∈ part.declarations, d.name = x := by
  cases part with
  | stmt s => exact Stmt.exists_declaration h
  | stmts ss =>
    cases ss with
    | nil => cases h
    | cons s ss =>
      obtain ⟨d, hd, hname⟩ := Stmt.exists_declaration h
      exact ⟨d, List.mem_append_left _ hd, hname⟩
  | _ => cases h

namespace Site

/-- Positions that are alike are in the body of the same method. -/
theorem Inherits.alike {p q : Position} {part part' : Part} (h : Inherits ⟨p, part⟩)
    (hpart : ∀ f, part ≠ .fn f) (hq : p.Alike q) : Inherits ⟨q, part'⟩ := by
  cases h with
  | method => exact absurd rfl (hpart _)
  | body inner h => exact .body inner (h.alike hq)

/-- What a site that inherits consists of inherits, and so do the methods of classes with a
superclass. -/
theorem inherits_of_mem_parts {x y : Site} (hregular : x.Regular)
    (hsuper : ∀ d ∈ x.part.declarations, d.name ≠ "super") (hy : y ∈ x.parts)
    (hx : x.position.around.inClass = .derived → x.Inherits)
    (hclass : y.position.around.inClass = .derived) : y.Inherits := by
  cases holds_of_mem_parts hregular hy with
  | @beside p q a b x? hx? hscopes hopened hinClass hfn =>
    refine (hx (hinClass.symm.trans hclass)).alike hfn ⟨hopened, hinClass, ?_⟩
    rw [hscopes]
    cases x? with
    | none => rfl
    | some x =>
      obtain ⟨d, hd, rfl⟩ := Part.exists_declaration (hx?.resolve_left (by simp)).symm
      exact Scopes.address_enter_of_ne (hsuper d hd) p.scopes true
  | initial p name initial =>
    have hname := hsuper (.named name.lexeme) List.mem_cons_self
    exact (hx hclass).alike (by simp) (p.alike_enter hname false)
  | block p body =>
    cases hx hclass with
    | body inner h => exact .body (_ :: inner) (h.push rfl rfl (p.address_block body))
  | body p f =>
    have haddress := p.address_body hsuper
    cases hx hclass with
    | method h => exact .body [] (h.push rfl rfl haddress)
    | body inner h => exact .body (_ :: inner) (h.push rfl rfl haddress)
  | method p name superclass hm =>
    cases superclass with
    | none => cases hclass
    | some super =>
      obtain ⟨methods, h⟩ := (p.enter name.lexeme true).inMethod_method super hm
      exact .method h

/-- Wherever the innermost class has a superclass, there is a method of this class. -/
theorem Visits.inherits {tree : Program Unit} {x : Site} (h : (ofProgram tree).Visits x)
    (hregular : (ofProgram tree).Regular)
    (hsuper : ∀ d ∈ Stmt.declarationsAll tree, d.name ≠ "super") :
    x.position.around.inClass = .derived → x.Inherits := by
  induction h with
  | refl => rintro ⟨⟩
  | @tail x y hx hy ih =>
    refine inherits_of_mem_parts (fun z hz => ?_) (fun d hd => ?_) hy ih
    · exact hregular z (Relation.ReflTransGen.trans hx hz)
    · exact hsuper d (Visits.declarations_subset hx hd)

end Site

namespace Program.Accepted

variable {source : Text} {tree : Program Unit} {p : Position} {keyword method : Mark}

theorem ne_super (h : Program.Accepted source tree)
    (himports : .imported "super" ∉ Stmt.declarationsAll tree) :
    ∀ d ∈ Stmt.declarationsAll tree, d.name ≠ "super" := by
  intro d hd
  have hspelled := h.declared d hd
  cases d with
  | named x => exact hspelled.ne_super
  | imported x =>
    rintro rfl
    exact himports hd

/-- A `super` in an accepted tree stands in a method of a class with a superclass, whose scope it
refers to if no import binds a name that is spelled like it. -/
theorem inMethod (h : Program.Accepted source tree)
    (himports : .imported "super" ∉ Stmt.declarationsAll tree)
    (hv : (Site.ofProgram tree).Visits ⟨p, .expr (.inherited keyword method ())⟩) :
    ∃ inner fn methods, p.InMethod (inner ++ [.call fn]) fn methods := by
  have hfaults := h.faults_eq_nil hv
  have hclass : p.around.inClass = .derived := by
    cases hc : p.around.inClass with
    | derived => rfl
    | _ => simp [Site.faults, Surroundings.inheritedProblem?, hc, Scopes.keyword] at hfaults
  cases hv.inherits h.regular (h.ne_super himports) hclass with
  | body inner h => exact ⟨inner, _, _, h⟩

end Program.Accepted

end Lox
