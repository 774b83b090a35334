import Lox.Proofs.Grammar.References
import Lox.Proofs.Machine.Designs

/-!
# Code as it was scanned

A run executes the code that it was given and that of the modules it imports, and makes none up. So
whatever it assigns to is named by an identifier. And the classes that a program can name are those
that were declared, never their metaclasses, so what they find as their initializers are ones.

## Design notes

Classes keep what they were declared with. So all that a step is about is taken to stand in the
store that the step leads to, or in a later one.
-/

namespace Lox

/-- A function with code as it was scanned, a class as it was declared, or any other value. -/
def Value.Proper (s : Store) : Value → Prop
  | .function c => c.fn.Spelled
  | .classRef c => s.Regular c
  | _ => True

/-- The code and the values in a part of an expression that waits. -/
def Pending.Proper (s : Store) : Pending → Prop
  | .left _ _ e _ => e.Spelled
  | .right _ _ v => v.Proper s
  | .logical _ e _ => e.Spelled
  | .conditional yes no _ => yes.Spelled ∧ no.Spelled
  | .assign mark _ _ => mark.lexeme.IsIdentifier
  | .setObject _ e _ => e.Spelled
  | .setValue object _ => object.Proper s
  | .callee _ arguments _ => ∀ e ∈ arguments, e.Spelled
  | .argument f _ done more _ => f.Proper s ∧ (∀ v ∈ done, v.Proper s) ∧ ∀ e ∈ more, e.Spelled
  | _ => True

/-- The code in a statement that waits for a value. -/
def Use.Spelled : Use → Prop
  | .branch yes no _ => yes.Spelled ∧ ∀ s ∈ no, s.Spelled
  | .test condition body _ => condition.Spelled ∧ body.Spelled
  | _ => True

/-- The code and the values in what waits for a value. -/
def Demand.Proper (s : Store) (d : Demand) : Prop := (∀ p ∈ d.pending, p.Proper s) ∧ d.use.Spelled

/-- The code and the values in what waits for a statement. -/
def Resume.Proper (s : Store) : Resume → Prop
  | .block body _ => ∀ s ∈ body, s.Spelled
  | .loop condition body _ => condition.Spelled ∧ body.Spelled
  | .program rest _ => ∀ s ∈ rest, s.Spelled
  | .call _ demand => demand.Proper s
  | .importing _ => True

/-- A value that is returned. -/
def Flow.Proper (s : Store) : Flow → Prop
  | .returned v => v.Proper s
  | _ => True

/-- The code and the values in a store and in what waits. -/
structure World.Proper (s : Store) (w : World) (rest : List Resume) : Prop where
  contents : w.store.All (·.Proper s) (·.fn.Spelled)
  waiting : ∀ r ∈ rest, r.Proper s

/-- The code and the values in a state and its store. -/
def State.Proper (s : Store) : State → Prop
  | eval e _ demand rest w => w.Proper s rest ∧ demand.Proper s ∧ e.Spelled
  | value v demand rest w => w.Proper s rest ∧ demand.Proper s ∧ v.Proper s
  | exec stmt _ rest w => w.Proper s rest ∧ stmt.Spelled
  | flow f rest w => w.Proper s rest ∧ f.Proper s
  | fail _ rest w => w.Proper s rest

theorem State.Proper.contents {s : Store} {st : State} (h : st.Proper s) :
    st.world.store.All (·.Proper s) (·.fn.Spelled) := by
  cases st with
  | fail f rest w => exact World.Proper.contents h
  | _ => exact h.1.contents

/-! ### Later stores -/

section Mono

variable {s s' : Store} (h : s.Retains s')

include h

theorem Value.Proper.mono {v : Value} (hv : v.Proper s) : v.Proper s' := by
  cases v with
  | function c => exact hv
  | classRef c => exact Store.Regular.mono h hv
  | _ => trivial

theorem Demand.Proper.mono {d : Demand} (hd : d.Proper s) : d.Proper s' := by
  refine ⟨fun p hp => ?_, hd.2⟩
  have hpending := hd.1 p hp
  cases p with
  | right op mark left => exact Value.Proper.mono h hpending
  | setValue object property => exact Value.Proper.mono h hpending
  | argument callee paren done more env =>
    obtain ⟨hcallee, hdone, hmore⟩ := hpending
    exact ⟨hcallee.mono h, fun v hv => (hdone v hv).mono h, hmore⟩
  | _ => exact hpending

theorem World.Proper.mono {w : World} {rest : List Resume} (hw : w.Proper s rest) :
    w.Proper s' rest where
  contents := hw.contents.mono (fun _ => Value.Proper.mono h) fun _ => id
  waiting := by
    intro r hr
    have hresume := hw.waiting r hr
    cases r with
    | call closure demand => exact Demand.Proper.mono h hresume
    | _ => exact hresume

theorem State.Proper.mono {st : State} (hs : st.Proper s) : st.Proper s' := by
  cases st with
  | eval e env demand rest w => exact ⟨hs.1.mono h, hs.2.1.mono h, hs.2.2⟩
  | value v demand rest w => exact ⟨hs.1.mono h, hs.2.1.mono h, hs.2.2.mono h⟩
  | exec stmt env rest w => exact ⟨hs.1.mono h, hs.2⟩
  | flow f rest w =>
    refine ⟨hs.1.mono h, ?_⟩
    cases f with
    | returned v => exact Value.Proper.mono h hs.2
    | _ => trivial
  | fail f rest w => exact World.Proper.mono h hs

end Mono

/-! ### Values and worlds -/

section

variable {s : Store} {w : World} {rest : List Resume} {v : Value}

theorem Value.Proper.of_isPlain (h : v.IsPlain) : v.Proper s := by
  cases v with
  | function c => cases h
  | classRef c => cases h
  | _ => trivial

theorem Demand.Proper.ofUse {u : Use} (hu : u.Spelled) : Demand.Proper s ⟨[], u⟩ :=
  ⟨List.forall_mem_nil _, hu⟩

theorem Demand.Proper.push {d : Demand} {p : Pending} (hd : d.Proper s) (hp : p.Proper s) :
    (d.push p).Proper s :=
  ⟨List.forall_mem_cons.mpr ⟨hp, hd.1⟩, hd.2⟩

theorem Demand.Proper.pop {p : Pending} {ps : List Pending} {u : Use}
    (hd : Demand.Proper s ⟨p :: ps, u⟩) : p.Proper s ∧ Demand.Proper s ⟨ps, u⟩ := by
  obtain ⟨hp, hps⟩ := List.forall_mem_cons.mp hd.1
  exact ⟨hp, hps, hd.2⟩

namespace World.Proper

theorem define (h : w.Proper s rest) (e : FrameId) (x : Text) (hv : v.Proper s) :
    (w.define e x v).Proper s rest :=
  ⟨h.contents.define e x hv, h.waiting⟩

theorem of_all {w' : World} (h : w.Proper s rest)
    (hall : w'.store.All (·.Proper s) (·.fn.Spelled)) : w'.Proper s rest :=
  ⟨hall, h.waiting⟩

theorem bind (h : w.Proper s rest) {receiver : Value} (hv : receiver.Proper s)
    (method : Closure) : (w.store.bind method receiver).2.All (·.Proper s) (·.fn.Spelled) :=
  h.contents.newFrameWith _ (List.forall_mem_singleton.mpr hv)

theorem cons {r : Resume} (h : w.Proper s rest) (hr : r.Proper s) : w.Proper s (r :: rest) :=
  ⟨h.contents, List.forall_mem_cons.mpr ⟨hr, h.waiting⟩⟩

theorem tail {r : Resume} (h : w.Proper s (r :: rest)) : w.Proper s rest :=
  ⟨h.contents, (List.forall_mem_cons.mp h.waiting).2⟩

end World.Proper

end

namespace State

variable {host : Host} {s : Store} {w : World} {env : FrameId} {demand : Demand}
variable {rest : List Resume} {v : Value}

/-! ### Parts and calls -/

/-- The parts of an expression have code as it was scanned. -/
theorem proper_part {e e' : Expr Address} {p : Pending} (he : e.Spelled)
    (h : e.part? env = some (e', p)) : p.Proper s ∧ e'.Spelled := by
  cases e with
  | unary op mark operand | get object property =>
    cases h
    exact ⟨trivial, he⟩
  | binary op mark left right | logical op mark left right | set left property right =>
    cases h
    obtain ⟨hleft, hright⟩ := List.forall_mem_append.mp he
    exact ⟨hright, hleft⟩
  | conditional c yes no =>
    cases h
    obtain ⟨hfirst, hno⟩ := List.forall_mem_append.mp he
    obtain ⟨hc, hyes⟩ := List.forall_mem_append.mp hfirst
    exact ⟨⟨hyes, hno⟩, hc⟩
  | assign mark ref v =>
    cases h
    exact List.forall_mem_cons.mp he
  | call callee paren arguments =>
    cases h
    obtain ⟨hcallee, harguments⟩ := List.forall_mem_append.mp he
    exact ⟨Expr.spelledAll_iff.mp harguments, hcallee⟩
  | _ => cases h

theorem proper_call {p : Pending} {callee : Value} {paren : Mark} {done : List Value}
    {more : List (Expr Address)} (hp : p.Proper s) (hv : v.Proper s)
    (h : p.call? v = some (callee, paren, done, more, env)) :
    callee.Proper s ∧ (∀ v ∈ done, v.Proper s) ∧ ∀ e ∈ more, e.Spelled := by
  rcases Pending.eq_of_call? h with ⟨rfl, rfl, rfl⟩ | ⟨before, rfl, rfl⟩
  · exact ⟨hv, List.forall_mem_nil _, hp⟩
  · exact ⟨hp.1, List.forall_mem_cons.mpr ⟨hv, hp.2.1⟩, hp.2.2⟩

section

variable (h : w.Proper s rest) (hd : demand.Proper s)

include h hd

theorem proper_bindMethod {method : Closure} {receiver : Value} (hm : method.fn.Spelled)
    (hv : receiver.Proper s) : (bindMethod method receiver demand rest w).Proper s :=
  ⟨h.of_all (h.bind hv method), hd, hm⟩

theorem proper_entered {closure : Closure} {arguments : List Value} (hc : closure.fn.Spelled)
    (ha : ∀ v ∈ arguments, v.Proper s) : (entered closure arguments demand rest w).Proper s := by
  have hcall : w.Proper s (.call closure demand :: rest) := h.cons hd
  have hblock : w.Proper s (.block closure.fn.body w.store.frames.size ::
    .call closure demand :: rest) := hcall.cons (Function.spelled_iff.mp hc)
  refine ⟨hblock.of_all ?_, trivial⟩
  exact h.contents.newFrameWith _ fun b hb => ha _ (List.of_mem_zip hb).2

end

theorem proper_initialized (h : w.Proper s rest) (c : ClassId) (method : Closure) :
    World.Proper s { w with store := initialized w.store c method } rest :=
  h.of_all ((h.contents.newInstance c).newFrameWith _ (by simp [Value.Proper]))

/-! ### Declarations -/

/-- A declared method is an initializer if it has the name of one and is not static. -/
theorem initializer_of_declareMethods {methods : List (Method Address)}
    {declared table : Table Closure}
    (hd : ∀ m, (("init" : Text), m) ∈ declared.entries → Store.isStatic m = false → m.initializer = true)
    (h : declareMethods env methods declared = .ok table) :
    ∀ m, (("init" : Text), m) ∈ table.entries → Store.isStatic m = false → m.initializer = true := by
  induction methods generalizing declared with
  | nil =>
    obtain rfl := Except.ok.inj h
    exact hd
  | cons method methods ih =>
    unfold declareMethods at h
    dsimp only at h
    split at h
    · cases h
    · refine ih (fun m hm hstatic => ?_) h
      rcases Table.mem_insert hm with heq | hold
      · obtain ⟨hname, rfl⟩ := Prod.mk.injEq _ _ _ _ ▸ heq
        cases hs : method.static with
        | false => simp [← hname]
        | true => simp [Store.isStatic, hs] at hstatic
      · exact hd m hold hstatic

/-- A new class is regular if what it inherits from is. -/
theorem regular_newClass {store : Store} {name : Text} {superclass : Option ClassId}
    {methods : List (Method Address)} {table : Table Closure}
    (hs : (store.newClass name superclass table).2.Retains s)
    (hm : declareMethods env methods ∅ = .ok table)
    (hsuper : ∀ c, superclass = some c → s.Regular c) :
    s.Regular (store.newClass name superclass table).1 := by
  refine .mk (hs.design _ _ (Store.design?_newClass store name superclass table)) ?_ hsuper
  intro m hfind
  obtain ⟨hmem, hstatic⟩ := List.mem_filter.mp (Table.mem_of_find? hfind)
  have hempty : ∀ m, (("init" : Text), m) ∈ (∅ : Table Closure).entries →
      Store.isStatic m = false → m.initializer = true := by
    rintro m ⟨⟩
  exact initializer_of_declareMethods hempty hm m hmem (by simpa using hstatic)

section Rest

variable (h : w.Proper s rest)

include h

theorem regular_findSuperclass {superclass : Option (Mark × Address)} {c? : Option ClassId}
    (hfind : findSuperclass w.store env superclass = .ok c?) (c : ClassId) (hc : c? = some c) :
    s.Regular c := by
  subst hc
  unfold findSuperclass at hfind
  split at hfind
  · cases hfind
  · split at hfind
    · cases hfind
    · next c' hread =>
      obtain rfl : c' = c := by simpa using hfind
      exact h.contents.read hread
    · cases hfind

theorem proper_classFrame (name : Mark) {c? : Option ClassId}
    (hsuper : ∀ c, c? = some c → s.Regular c) : (classFrame w name env c?).2.Proper s rest := by
  have hnil := h.define env name.lexeme (v := .nil) trivial
  cases c? with
  | none => exact hnil
  | some c =>
    exact hnil.of_all (hnil.contents.newFrameWith _ (List.forall_mem_singleton.mpr (hsuper c rfl)))

end Rest

/-! ### Statements -/

/-- The parts of a statement have code as it was scanned. -/
theorem spelled_part {stmt : Stmt Address} {e : Expr Address} {u : Use} (hstmt : stmt.Spelled)
    (h : stmt.part? env = some (e, u)) : u.Spelled ∧ e.Spelled := by
  unfold Stmt.part? at h
  split at h <;> cases h
  case h_4 c yes no =>
    cases no with
    | none =>
      obtain ⟨hc, hyes⟩ := List.forall_mem_append.mp hstmt
      exact ⟨⟨hyes, by rintro s ⟨⟩⟩, hc⟩
    | some no =>
      obtain ⟨hfirst, hno⟩ := List.forall_mem_append.mp hstmt
      obtain ⟨hc, hyes⟩ := List.forall_mem_append.mp hfirst
      refine ⟨⟨hyes, ?_⟩, hc⟩
      rintro s ⟨⟩
      exact hno
  case h_5 =>
    obtain ⟨hc, hbody⟩ := List.forall_mem_append.mp hstmt
    exact ⟨⟨hc, hbody⟩, hc⟩
  all_goals exact ⟨trivial, hstmt⟩

theorem proper_binding {stmt : Stmt Address} {x : Text} (hstmt : stmt.Spelled)
    (h : stmt.binding? env = some (x, v)) : v.Proper s := by
  unfold Stmt.binding? at h
  split at h <;> cases h
  · trivial
  · exact hstmt

theorem spelled_methods {name : Mark} {superclass : Option (Mark × Address)}
    {methods : List (Method Address)} (h : (Stmt.classDecl name superclass methods).Spelled) :
    ∀ m ∈ methods, m.fn.Spelled := by
  refine Method.spelledAll_iff.mp ?_
  cases superclass with
  | none => exact h
  | some superclass => exact (List.forall_mem_cons.mp h).2

/-! ### Steps and runs -/

variable {st : State}

theorem Proper.world (h : st.Proper s) : st.world.Proper s st.waiting := by
  cases st with
  | fail f rest w => exact h
  | _ => exact h.1

theorem proper_step (h : st.Proper s) (hs : (st.step host).world.store.Retains s) :
    (st.step host).Proper s := by
  have hmove := moves_step host st
  generalize st.opens host = opened, st.step host = st' at hmove hs ⊢
  cases hmove with
  -- expressions
  | literal => exact ⟨h.1, h.2.1, .of_isPlain (Value.isPlain_ofLiteral _)⟩
  | part hp =>
    obtain ⟨hpending, he⟩ := proper_part h.2.2 hp
    exact ⟨h.1, h.2.1.push hpending, he⟩
  | read _ hv => exact ⟨h.1, h.2.1, h.1.contents.read hv⟩
  | inherited _ hthis hm =>
    exact proper_bindMethod h.1 h.2.1 (h.1.contents.inherited hm) (h.1.contents.getAt hthis)
  -- operators and properties
  | unary hv => exact ⟨h.1, h.2.1.pop.2, .of_isPlain hv⟩
  | left | object => exact ⟨h.1, h.2.1.pop.2.push h.2.2, h.2.1.pop.1⟩
  | right hv =>
    refine ⟨h.1, h.2.1.pop.2, ?_⟩
    rcases hv with rfl | hv
    · exact h.2.2
    · exact .of_isPlain hv
  | decided => exact ⟨h.1, h.2.1.pop.2, h.2.2⟩
  | undecided => exact ⟨h.1, h.2.1.pop.2, h.2.1.pop.1⟩
  | chosen he =>
    refine ⟨h.1, h.2.1.pop.2, ?_⟩
    rcases he with rfl | rfl
    · exact h.2.1.pop.1.1
    · exact h.2.1.pop.1.2
  | assign => exact ⟨h.1.define _ _ h.2.2, h.2.1.pop.2, h.2.2⟩
  | field hp => exact ⟨h.1, h.2.1.pop.2, h.1.contents.of_property_eq_value hp⟩
  | method hp =>
    exact proper_bindMethod h.1 h.2.1.pop.2 (h.1.contents.of_property_eq_method hp) h.2.2
  | setClass => exact ⟨h.1.of_all (h.1.contents.setClassField _ _ h.2.2), h.2.1.pop.2, h.2.2⟩
  | setInstance => exact ⟨h.1.of_all (h.1.contents.setInstanceField _ _ h.2.2), h.2.1.pop.2, h.2.2⟩
  -- calls
  | argument hp =>
    obtain ⟨hc, hdone, hmore⟩ := proper_call h.2.1.pop.1 h.2.2 hp
    obtain ⟨he, hmore⟩ := List.forall_mem_cons.mp hmore
    exact ⟨h.1, h.2.1.pop.2.push ⟨hc, hdone, hmore⟩, he⟩
  | call hp =>
    obtain ⟨hc, hdone, -⟩ := proper_call h.2.1.pop.1 h.2.2 hp
    exact proper_entered h.1 h.2.1.pop.2 hc fun v hv => hdone v (List.mem_reverse.mp hv)
  | clock => exact ⟨h.1.of_all h.1.contents, h.2.1.pop.2, trivial⟩
  | readInput _ hread =>
    exact ⟨h.1.of_all h.1.contents, h.2.1.pop.2, .of_isPlain (NativeFunction.isPlain_of_read? hread)⟩
  | noInput | noLoad => exact h.1.of_all h.contents
  | newInstance => exact ⟨h.1.of_all (h.1.contents.newInstance _), h.2.1.pop.2, trivial⟩
  | construct hp hm =>
    obtain ⟨-, hdone, -⟩ := proper_call h.2.1.pop.1 h.2.2 hp
    have hmethod := h.1.contents.findMethod hm
    exact proper_entered (proper_initialized h.1 _ _) h.2.1.pop.2 hmethod
      fun v hv => hdone v (List.mem_reverse.mp hv)
  | constructOverflow => exact proper_initialized h.1 _ _
  -- statements that have their value
  | shown _ hw =>
    refine ⟨h.1.of_all ?_, trivial⟩
    rcases hw with rfl | rfl <;> exact h.1.contents
  | defined => exact ⟨h.1.define _ _ h.2.2, trivial⟩
  | branch hstmt =>
    refine ⟨h.1, ?_⟩
    rcases hstmt with rfl | hno
    · exact h.2.1.2.1
    · exact h.2.1.2.2 _ hno
  | round => exact ⟨h.1.cons h.2.1.2, h.2.1.2.2⟩
  | result => exact ⟨h.1, h.2.2⟩
  -- statements
  | demand hp =>
    obtain ⟨hu, he⟩ := spelled_part h.2 hp
    exact ⟨h.1, .ofUse hu, he⟩
  | bind hp => exact ⟨h.1.define _ _ (proper_binding h.2 hp), trivial⟩
  | block =>
    have hbody := Stmt.spelledAll_iff.mp h.2
    exact ⟨(h.1.of_all (h.contents.newFrame _)).cons hbody, trivial⟩
  | @declareClass name superclass methods env rest w c? table hfind htable =>
    have hsuper := regular_findSuperclass h.1 hfind
    have hframe : (classFrame w name env c?).2.Proper s rest := proper_classFrame h.1 name hsuper
    have hall : table.All (·.fn.Spelled) := by
      refine all_of_declareMethods ?_ .empty htable
      rintro c - ⟨m, hmem, hfn⟩
      rw [hfn]
      exact spelled_methods h.2 m hmem
    have hclass := hframe.contents.newClass name.lexeme c? hall
    have hregular := regular_newClass ⟨hs.design, hs.classOf⟩ htable hsuper
    exact ⟨(hframe.of_all hclass).define env name.lexeme hregular, trivial⟩
  | repeatMethod hfind => exact proper_classFrame h.1 _ (regular_findSuperclass h.1 hfind)
  | load hprogram =>
    -- a module brings code of its own, scanned like any other
    have hcode := Stmt.spelledAll_iff.mp (Program.reads_of_ofSourceWith hprogram).spelled
    refine ⟨⟨h.contents.newFrameWith none (by simp [Value.Proper]), ?_⟩, trivial⟩
    exact List.forall_mem_cons.mpr ⟨hcode, List.forall_mem_cons.mpr ⟨trivial, h.1.waiting⟩⟩
  -- statements that have finished
  | next | nextTop =>
    obtain ⟨hstmt, hmore⟩ := List.forall_mem_cons.mp (h.1.waiting _ List.mem_cons_self)
    exact ⟨h.1.tail.cons hmore, hstmt⟩
  | leave | returned => exact ⟨h.1.tail, h.2⟩
  | again =>
    have hr := h.1.waiting _ List.mem_cons_self
    exact ⟨h.1.tail, .ofUse hr, hr.1⟩
  | broke | leaveTop => exact ⟨h.1.tail, trivial⟩
  | answer =>
    refine ⟨h.1.tail.of_all h.contents, h.1.waiting _ List.mem_cons_self,
      callResult_of_all h.contents _ trivial ?_⟩
    rintro v rfl
    exact h.2
  | imported => exact ⟨h.1.tail.of_all (h.contents.define _ _ trivial), trivial⟩
  -- failures and ends
  | callOverflow | redeclare => exact h.1
  | noBranch | noRound | ret | brk => exact ⟨h.1, trivial⟩
  | fails => exact h.world
  | @unwind f r => cases r <;> exact h.world.tail.of_all h.contents
  | function | group | ended => exact h

/-- A step keeps code and classes as they were, and what it adds is like them. -/
theorem Proper.step (h : st.Proper st.world.store) :
    (st.step host).Proper (st.step host).world.store :=
  proper_step (h.mono (retains_step host st)) (.refl _)

end State

end Lox
