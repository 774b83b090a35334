import Lox.Proofs.Scope.Walk
import Lox.Tree.Map

/-!
# Erased addresses

Resolution gives references their addresses and changes nothing else, so erasing the addresses
gives back the tree that was resolved.
-/

namespace Lox

attribute [simp] Expr.map Expr.mapAll Function.map Method.mapAll Stmt.map Stmt.mapAll

/-- A program without the addresses of its references. -/
def Program.erase {ρ : Type} (program : Program ρ) : Program Unit :=
  Stmt.mapAll (fun _ => ()) program

/-! ### Resolved trees -/

mutual

@[simp] theorem Expr.erase_resolve (around : Surroundings) (scopes : Scopes) :
    (e : Expr Unit) → (e.resolve around scopes).1.map (fun _ => ()) = e
  | .literal value => rfl
  | .group inner => by simp [inner.erase_resolve]
  | .unary op mark operand => by simp [operand.erase_resolve]
  | .binary op mark left right => by simp [left.erase_resolve, right.erase_resolve]
  | .logical op mark left right => by simp [left.erase_resolve, right.erase_resolve]
  | .conditional condition yes no => by
    simp [condition.erase_resolve, yes.erase_resolve, no.erase_resolve]
  | .name mark ref => rfl
  | .assign mark ref value => by simp [value.erase_resolve]
  | .get object property => by simp [object.erase_resolve]
  | .set object property value => by simp [object.erase_resolve, value.erase_resolve]
  | .call callee paren arguments => by
    simp [callee.erase_resolve, Expr.eraseAll_resolveAll around scopes arguments]
  | .function keyword fn => by simp [fn.erase_resolve]
  | .receiver keyword ref => rfl
  | .inherited keyword method ref => rfl

@[simp] theorem Expr.eraseAll_resolveAll (around : Surroundings) (scopes : Scopes) :
    (es : List (Expr Unit)) → Expr.mapAll (fun _ => ()) (Expr.resolveAll around scopes es).1 = es
  | [] => rfl
  | e :: es => by simp [e.erase_resolve, Expr.eraseAll_resolveAll around scopes es]

@[simp] theorem Function.erase_resolve (around : Surroundings) (scopes : Scopes) :
    (f : Function Unit) → (f.resolve around scopes).1.map (fun _ => ()) = f
  | .mk params body => by simp [Stmt.eraseAll_resolveAll _ _ body]

@[simp] theorem Method.eraseAll_resolveAll (around : Surroundings) (scopes : Scopes)
    (seen : List Text) : (ms : List (Method Unit)) →
      Method.mapAll (fun _ => ()) (Method.resolveAll around scopes seen ms).1 = ms
  | [] => rfl
  | .mk static name fn :: ms => by
    simp [fn.erase_resolve, Method.eraseAll_resolveAll around scopes _ ms]

@[simp] theorem Stmt.erase_resolve (around : Surroundings) (scopes : Scopes) :
    (s : Stmt Unit) → (s.resolve around scopes).1.map (fun _ => ()) = s
  | .expression e => by simp [e.erase_resolve]
  | .print e => by simp [e.erase_resolve]
  | .varDecl name none => rfl
  | .varDecl name (some e) => by simp [e.erase_resolve]
  | .block body => by simp [Stmt.eraseAll_resolveAll _ _ body]
  | .branch condition yes none => by simp [condition.erase_resolve, yes.erase_resolve]
  | .branch condition yes (some no) => by
    simp [condition.erase_resolve, yes.erase_resolve, no.erase_resolve]
  | .loop condition body => by simp [condition.erase_resolve, body.erase_resolve]
  | .ret keyword none => rfl
  | .ret keyword (some e) => by simp [e.erase_resolve]
  | .brk keyword => rfl
  | .funDecl name fn => by simp [fn.erase_resolve]
  | .classDecl name none methods => by simp [Method.eraseAll_resolveAll _ _ _ methods]
  | .classDecl name (some (super, ref)) methods => by
    simp [Method.eraseAll_resolveAll _ _ _ methods]
  | .importDecl path asName => rfl

@[simp] theorem Stmt.eraseAll_resolveAll (around : Surroundings) (scopes : Scopes) :
    (ss : List (Stmt Unit)) → Stmt.mapAll (fun _ => ()) (Stmt.resolveAll around scopes ss).1 = ss
  | [] => rfl
  | s :: ss => by simp [s.erase_resolve, Stmt.eraseAll_resolveAll _ _ ss]

end

theorem Resolved.erase_ofProgram (program : Program Unit) :
    (Resolved.ofProgram program).program.erase = program :=
  Stmt.eraseAll_resolveAll _ _ program

/-! ### Changed annotations -/

section Map

variable {σ : Type} (f : Unit → σ)

mutual

theorem Expr.erase_map : (e : Expr Unit) → (e.map f).map (fun _ => ()) = e
  | .literal value => rfl
  | .group inner => by simp [inner.erase_map]
  | .unary op mark operand => by simp [operand.erase_map]
  | .binary op mark left right => by simp [left.erase_map, right.erase_map]
  | .logical op mark left right => by simp [left.erase_map, right.erase_map]
  | .conditional condition yes no => by simp [condition.erase_map, yes.erase_map, no.erase_map]
  | .name mark ref => rfl
  | .assign mark ref value => by simp [value.erase_map]
  | .get object property => by simp [object.erase_map]
  | .set object property value => by simp [object.erase_map, value.erase_map]
  | .call callee paren arguments => by simp [callee.erase_map, Expr.eraseAll_mapAll arguments]
  | .function keyword fn => by simp [fn.erase_map]
  | .receiver keyword ref => rfl
  | .inherited keyword method ref => rfl

theorem Expr.eraseAll_mapAll :
    (es : List (Expr Unit)) → Expr.mapAll (fun _ => ()) (Expr.mapAll f es) = es
  | [] => rfl
  | e :: es => by simp [e.erase_map, Expr.eraseAll_mapAll es]

theorem Function.erase_map : (fn : Function Unit) → (fn.map f).map (fun _ => ()) = fn
  | .mk params body => by simp [Stmt.eraseAll_mapAll body]

theorem Method.eraseAll_mapAll :
    (ms : List (Method Unit)) → Method.mapAll (fun _ => ()) (Method.mapAll f ms) = ms
  | [] => rfl
  | .mk static name fn :: ms => by simp [fn.erase_map, Method.eraseAll_mapAll ms]

theorem Stmt.erase_map : (s : Stmt Unit) → (s.map f).map (fun _ => ()) = s
  | .expression e => by simp [e.erase_map]
  | .print e => by simp [e.erase_map]
  | .varDecl name none => rfl
  | .varDecl name (some e) => by simp [e.erase_map]
  | .block body => by simp [Stmt.eraseAll_mapAll body]
  | .branch condition yes none => by simp [condition.erase_map, yes.erase_map]
  | .branch condition yes (some no) => by
    simp [condition.erase_map, yes.erase_map, no.erase_map]
  | .loop condition body => by simp [condition.erase_map, body.erase_map]
  | .ret keyword none => rfl
  | .ret keyword (some e) => by simp [e.erase_map]
  | .brk keyword => rfl
  | .funDecl name fn => by simp [fn.erase_map]
  | .classDecl name none methods => by simp [Method.eraseAll_mapAll methods]
  | .classDecl name (some (super, ref)) methods => by simp [Method.eraseAll_mapAll methods]
  | .importDecl path asName => rfl

theorem Stmt.eraseAll_mapAll :
    (ss : List (Stmt Unit)) → Stmt.mapAll (fun _ => ()) (Stmt.mapAll f ss) = ss
  | [] => rfl
  | s :: ss => by simp [s.erase_map, Stmt.eraseAll_mapAll ss]

end

end Map

theorem Program.erase_unaddressed (program : Program Unit) : program.unaddressed.erase = program :=
  Stmt.eraseAll_mapAll _ program

end Lox
