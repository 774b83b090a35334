import Lox.Proofs.Machine.Range
import Lox.Proofs.Store.Changes

/-!
# What a step does to the store

A step changes the store by a few changes at most. A name becomes bound in a frame that was there
before only if the step is the one by which a declaration takes effect; frames are created for what
the step opens, and those of globals are the ones without a parent.
-/

namespace Lox

/-- Any frame that a name is assigned in binds it. -/
theorem Store.binds_of_writable {s : Store} {env e : FrameId} {ref : Address} {x : Text}
    (h : s.writable env ref x = some e) : s.binds e x = true := by
  cases ref with
  | none => exact List.find?_some (p := (s.binds · x)) h
  | some d => exact (Option.filter_eq_some_iff.mp h).2

namespace State

/-- The name that the next step declares, and the frame in which it does. -/
def declares? : State → Option (FrameId × Text)
  | value _ ⟨[], .define x env⟩ _ _ => some (env, x)
  | exec (.varDecl name none) env _ _ => some (env, name.lexeme)
  | exec (.funDecl name _) env _ _ => some (env, name.lexeme)
  | exec (.classDecl name _ _) env _ _ => some (env, name.lexeme)
  | flow _ (.importing i :: _) _ => some (i.env, i.loaded.name)
  | _ => none

/-- Where a name may be new after the next step. -/
def Declares (s : State) (e : FrameId) (x : Text) : Prop := s.declares? = some (e, x)

variable {D : FrameId → Text → Prop} {w : World} {env : FrameId}

/-- Whether frames are ones of globals, by what they were opened for. -/
abbrev topsOf (origins : List Origin) : List Bool := origins.map Origin.isGlobal

theorem declares_binding {stmt : Stmt Address} {x : Text} {v : Value} {rest : List Resume}
    (h : stmt.binding? env = some (x, v)) : (exec stmt env rest w).Declares env x := by
  unfold Stmt.binding? at h
  split at h <;> cases h <;> rfl

/-! ### Instances and classes -/

theorem changes_initialized (s : Store) (c : ClassId) (method : Closure) :
    s.Changes D [false] (initialized s c method) := by
  have hnew : s.Changes D [] (s.newInstance c).2 := .newInstance c .refl
  exact hnew.newFrameWith (some method.frame) _

theorem changes_classFrame (name : Mark) (c? : Option ClassId) (methods : List (Method Address))
    (hD : D env name.lexeme) :
    w.store.Changes D (topsOf (if c?.isSome then [.superclass methods] else []))
      (classFrame w name env c?).2.store := by
  have hnil : w.store.Changes D [] (w.define env name.lexeme .nil).store :=
    .define .nil .refl fun _ => .inr hD
  cases c? with
  | none => exact hnil
  | some c => exact hnil.newFrameWith (some env) _

/-- The superclass of a class is there before its methods are. -/
theorem lt_classFrame {superclass : Option (Mark × Address)} {c? : Option ClassId} (name : Mark)
    (hfind : findSuperclass w.store env superclass = .ok c?) (hs : w.store.Ordered) (c : Nat)
    (hc : c? = some c) : c < (classFrame w name env c?).2.store.classes.size := by
  have hw : w.Holds w.depth [] := ⟨hs, List.forall_mem_nil _, rfl⟩
  have hlt := findSuperclass_lt hw hfind c hc
  cases c? <;> exact hlt

/-! ### Steps -/

/-- What one step does to the store. -/
theorem changes_step (host : Host) (s : State) :
    s.world.store.Changes s.Declares (topsOf (s.opens host)) (s.step host).world.store := by
  have hmove := moves_step host s
  generalize s.opens host = opened, s.step host = s' at hmove ⊢
  cases hmove with
  | assign he => exact .define _ .refl fun _ => .inl (Store.binds_of_writable he)
  | defined | imported => exact .define _ .refl fun _ => .inr rfl
  | bind hp => exact .define _ .refl fun _ => .inr (declares_binding hp)
  | inherited | method | call => exact Store.Changes.refl.newFrameWith (some _) _
  | block => exact .newFrame (some _) .refl
  | load => exact .newFrameWith none _ .refl
  | setClass => exact .setClassField _ _ _ .refl
  | setInstance => exact .setInstanceField _ _ _ .refl
  | newInstance => exact .newInstance _ .refl
  | construct => exact (changes_initialized _ _ _).newFrameWith (some _) _
  | constructOverflow => exact changes_initialized _ _ _
  | @declareClass name superclass methods env rest w c? table hfind =>
    have hD : (exec (.classDecl name superclass methods) env rest w).Declares env name.lexeme := rfl
    have hframe := changes_classFrame (w := w) name c? methods hD
    exact .define _ (hframe.newClass name.lexeme table (lt_classFrame name hfind)) fun _ => .inr rfl
  | repeatMethod => exact changes_classFrame _ _ _ rfl
  | shown _ hw => rcases hw with rfl | rfl <;> exact .refl
  | @unwind f r => cases r <;> exact .refl
  | _ => exact .refl

end State

end Lox
