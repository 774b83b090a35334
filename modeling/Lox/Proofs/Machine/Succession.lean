import Lox.Proofs.Machine.Import
import Lox.Proofs.Source.Concatenation

/-!
# Sources one after another

A session may get its sources one at a time, or all of them as one source. It makes no difference:
as long as the first source runs to its end, the second one goes on from the same world. Only the
lines are others on which the second source stands then.

## Design notes

The run of the joined source is followed in two parts. Up to the end of the first source every
statement runs by itself, whatever waits after it. From there on two runs of the second source are
compared after their lines have been forgotten.
-/

namespace Lox

open State

/-! ### The first source -/

namespace Embedding

variable {host : Host} {tail : List Resume} {w : World}

/-- What surrounds the run of a single statement: what goes on after it. -/
def before (tail : List Resume) : Embedding :=
  { Placement.unmoved with depth := 0, events := [], tail }

theorem host_before (tail : List Resume) (host : Host) : (before tail).host host = host := by
  simp [Embedding.host, before]

theorem world_before : (before tail).world w = w := by
  simp [Embedding.world, before]

theorem state_before_exec (s : Stmt Address) (env : FrameId) :
    (before tail).state (exec s env [] w) = exec s env tail w := by
  have he : (before tail).frame env = env := congrFun Placement.frame_unmoved env
  have hl : (before tail).line = id := rfl
  simp only [state, world_before, he, hl, Stmt.mapLines_id]
  rfl

theorem state_before_flow (f : Flow) : (before tail).state (flow f [] w) = flow f tail w := by
  have hf : (before tail).flow f = f := by
    cases f with
    | returned v => exact congrArg Flow.returned (congrFun Placement.value_unmoved v)
    | _ => rfl
  simp only [state, world_before, hf]
  rfl

theorem state_before_fail (f : Failure) : (before tail).state (fail f [] w) = fail f tail w := by
  have hl : (before tail).line = id := rfl
  simp only [state, world_before, hl, Failure.mapLine_id]
  rfl

/-- A statement that finishes by itself finishes in the same way before anything that waits. -/
theorem finishes_before (tail : List Resume) {s : Stmt Address} {env : FrameId} {d : Nat}
    {f : Flow} {w' : World}
    (h : (exec s env [] w).Within d) (hu : (exec s env [] w).Finishes host [] (flow f [] w')) :
    (exec s env tail w).Finishes host tail (flow f tail w') := by
  have hf := finishes_of_state (x := before tail) (t := flow f tail w') rfl h (Nat.le_refl _) hu (by
    rw [state_before_flow]
    exact .here (.flow f w'))
  rwa [state_before_exec, host_before] at hf

/-- A run that ends has finished its first statement before. -/
theorem exists_finishes_before {r : Resume} {s : Stmt Address} {env : FrameId} {d : Nat} {t : State}
    (h : (exec s env [] w).Within d) (ht : (exec s env (r :: tail) w).Finishes host [] t) :
    ∃ u, (exec s env [] w).Finishes host [] u ∧
      ((before (r :: tail)).state u).Finishes host [] t := by
  have hlt : ([] : List Resume).length < (before (r :: tail)).tail.length := Nat.zero_lt_succ _
  rw [← state_before_exec, ← host_before (r :: tail) host] at ht
  obtain ⟨u, hu, hut⟩ := exists_finishes rfl h hlt ht
  exact ⟨u, hu, by rwa [host_before] at hut⟩

end Embedding

namespace State

variable {host : Host} {g : FrameId} {d : Nat} {f' : Flow} {w' : World}

/-- A program that is followed by another one comes to the other one in the world in which it would
have ended. -/
theorem run_program_append (more : Program Address) {program : Program Address} {f : Flow}
    {w : World} (h : (flow f [.program program g] w).Within d)
    (hf : (flow f [.program program g] w).Finishes host [] (flow f' [] w')) :
    ∃ k f'', (flow f [.program (program ++ more) g] w).run host k =
      flow f'' [.program more g] w' := by
  induction program generalizing f w with
  | nil =>
    cases hf with
    | step _ hf =>
      cases hf.unique (.here (.flow .normal w))
      exact ⟨0, f, rfl⟩
  | cons s rest ih =>
    cases hf with
    | step _ hf =>
      have hs : ((flow f [.program (s :: rest) g] w).step host).Within d := h.step
      change (exec s g [.program rest g] w).Within d at hs
      have hs₀ : (exec s g [] w).Within d := ⟨hs.1.tail rfl, hs.2⟩
      obtain ⟨u, hu, hut⟩ := Embedding.exists_finishes_before hs₀ hf
      cases hu.returned with
      | flow f₁ w₁ =>
        rw [Embedding.state_before_flow] at hut
        obtain ⟨k, f'', hk⟩ := ih (hs.finishes (Embedding.finishes_before _ hs₀ hu)) hut
        obtain ⟨j, hj⟩ :=
          (Embedding.finishes_before [.program (rest ++ more) g] hs₀ hu).exists_run
        refine ⟨j + k + 1, f'', ?_⟩
        rw [run_succ]
        change (exec s g [.program (rest ++ more) g] w).run host (j + k) = _
        rw [run_add, hj, hk]
      | fail f₁ w₁ =>
        -- a failure would have ended the program
        rw [Embedding.state_before_fail] at hut
        cases hut with
        | step _ hut => cases hut.unique (.here (.fail f₁ w₁))

end State

/-! ### Lines -/

/-- Forgets the lines of the code in a store. -/
def Placement.unlined : Placement := ⟨fun _ => 0, {}⟩

/-- Forgets the lines of a run that comes after some events. -/
def Embedding.unlined (events : List Event) : Embedding :=
  { Placement.unlined with depth := 0, events, tail := [] }

/-- Forgets the lines of a program that is about to run. -/
def State.unlineProgram : State → State
  | flow .normal (.program program globals :: rest) w =>
    flow .normal (.program (Stmt.mapLinesAll (fun _ => 0) program) globals :: rest) w
  | s => s

namespace Embedding

variable {host : Host} {events events' : List Event} {d d' : Nat} {s s' t : State}

theorem unlineProgram_state (s : State) :
    ((unlined events).state s).unlineProgram = (unlined events).state s := by
  cases s with
  | flow f rest w =>
    cases f with
    | normal =>
      cases rest with
      | nil => rfl
      | cons r rest =>
        cases r with
        | program program globals =>
          change
            flow .normal (.program (Stmt.mapLinesAll _ (Stmt.mapLinesAll _ program)) _ :: _) _ =
              flow .normal (.program (Stmt.mapLinesAll _ program) _ :: _) _
          rw [Stmt.mapLinesAll_mapLinesAll]
          rfl
        | _ => rfl
    | _ => rfl
  | _ => rfl

theorem Follows.state_eq (h : (unlined events).Follows s t) :
    (unlined events).state s = t.unlineProgram := by
  cases h with
  | same s => exact (unlineProgram_state s).symm
  | load _ globals rest w => rfl

theorem isFinal_unlined (s : State) : ((unlined events).state s).isFinal = s.isFinal := by
  cases s with
  | flow f rest w | fail f rest w => cases rest <;> rfl
  | _ => rfl

/-- States that lead on to the same state without lines lead on to states that are alike. -/
theorem unlined_step (h : s.Within d) (h' : s'.Within d') (hf : s.isFinal = false)
    (hf' : s'.isFinal = false)
    (heq : ((unlined events).state s).step ((unlined events).host host) =
      ((unlined events').state s').step ((unlined events').host host)) :
    (unlined events).state (s.step host) = (unlined events').state (s'.step host) := by
  rw [(follows_step h hf).state_eq, (follows_step h' hf').state_eq, heq]

/-- Runs from states that are alike stay alike. -/
theorem unlined_run (h : s.Within d) (h' : s'.Within d')
    (heq : (unlined events).state s = (unlined events').state s') (n : Nat) :
    (unlined events).state (s.run host n) = (unlined events').state (s'.run host n) := by
  induction n generalizing s s' with
  | zero => exact heq
  | succ n ih =>
    have hfinal : s.isFinal = s'.isFinal := by
      rw [← isFinal_unlined s, heq, isFinal_unlined]
    cases hf : s.isFinal with
    | true => rw [run_of_isFinal hf, run_of_isFinal (hfinal ▸ hf), heq]
    | false =>
      rw [run_succ, run_succ]
      exact ih h.step h'.step (unlined_step h h' hf (hfinal ▸ hf) (by rw [heq]; rfl))

end Embedding

/-- Endings that differ at most in the line of a failure. -/
inductive Ending.Alike : Ending → Ending → Prop
  | finished : Alike .finished .finished
  | runtime {m m' : Mark} (fault : Fault) : m.lexeme = m'.lexeme →
      Alike (.failed (.runtime m fault)) (.failed (.runtime m' fault))
  | overflow {m m' : Mark} : m.lexeme = m'.lexeme →
      Alike (.failed (.overflow m)) (.failed (.overflow m'))
  | outOfSteps : Alike .outOfSteps .outOfSteps

/-- Interpreters that differ at most in the lines of the code they contain. -/
structure Interpreter.Alike (i j : Interpreter) : Prop where
  host : i.host = j.host
  globals : i.globals = j.globals
  store : Placement.unlined.store i.world.store = Placement.unlined.store j.world.store
  input : i.world.input = j.world.input
  clock : i.world.clock = j.world.clock
  depth : i.world.depth = j.world.depth
  echo : i.world.echo = j.world.echo

theorem Ending.Alike.of_mapLine {line : Int → Int} {f f' : Failure}
    (h : f.mapLine line = f'.mapLine line) : Ending.Alike (.failed f) (.failed f') := by
  have hlexeme := congrArg (fun f : Failure => f.mark.lexeme) h
  cases f with
  | runtime m fault =>
    cases f' with
    | runtime m' fault' =>
      obtain ⟨-, rfl⟩ := Failure.runtime.inj h
      exact .runtime fault hlexeme
    | overflow m' => cases h
  | overflow m =>
    cases f' with
    | runtime m' fault' => cases h
    | overflow m' => exact .overflow hlexeme

theorem Embedding.ending_alike {events events' : List Event} {s s' : State}
    (h : (unlined events).state s = (unlined events').state s') : s.ending.Alike s'.ending := by
  have hfinal : s.isFinal = s'.isFinal := by
    rw [← isFinal_unlined s, h, isFinal_unlined]
  cases hf : s.isFinal with
  | false =>
    rw [ending_of_not_final hf, ending_of_not_final (hfinal ▸ hf)]
    exact .outOfSteps
  | true =>
    cases returned_nil_iff.mpr hf with
    | flow f w =>
      cases returned_nil_iff.mpr (hfinal ▸ hf) with
      | flow f' w' => exact .finished
      | fail f' w' => cases h
    | fail f w =>
      cases returned_nil_iff.mpr (hfinal ▸ hf) with
      | flow f' w' => cases h
      | fail f' w' => exact .of_mapLine (State.fail.inj h).1

/-! ### Sessions -/

namespace Interpreter

/-- Interpreters that are alike have the same globals. -/
theorem Alike.globalBindings_eq {i j : Interpreter} (h : i.Alike j) :
    i.globalBindings = j.globalBindings := by
  unfold globalBindings
  rw [← Placement.dump_store (x := Placement.unlined), h.store, h.globals, Placement.dump_store]

/-- Interpreters in worlds that are alike. -/
theorem Alike.of_world (host : Host) (globals : FrameId) {w w' : World}
    {events events' : List Event}
    (h : (Embedding.unlined events).world w = (Embedding.unlined events').world w') :
    Interpreter.Alike ⟨host, { w with events := [] }, globals⟩
      ⟨host, { w' with events := [] }, globals⟩ := by
  obtain ⟨hstore, hinput, hclock, hdepth, hecho, -⟩ := World.mk.inj h
  exact ⟨rfl, rfl, hstore, hinput, hclock, Nat.add_left_cancel hdepth, hecho⟩

/-- The state in which a program has run to its end. -/
theorem exists_of_execute_eq_finished {i j : Interpreter} {n : Nat} {program : Program Address}
    {events : List Event} (h : i.execute n program = (.finished, events, j)) :
    ∃ f w, i.stateAt program n = .flow f [] w ∧ events = w.events.reverse ∧
      j = ⟨i.host, { w with events := [] }, i.globals⟩ := by
  rw [execute_eq] at h
  obtain ⟨hending, h⟩ := Prod.mk.inj h
  obtain ⟨rfl, rfl⟩ := Prod.mk.inj h
  cases hs : i.stateAt program n with
  | flow f rest w =>
    cases rest with
    | nil => exact ⟨f, w, rfl, rfl, rfl⟩
    | cons r rest => rw [hs] at hending; cases hending
  | fail f rest w =>
    rw [hs] at hending
    cases rest <;> cases hending
  | _ => rw [hs] at hending; cases hending

/-- Two runs of a program on different lines, where the second one comes after some events. -/
theorem run_alike (host : Host) {g : FrameId} {f : Flow} {w : World} {program : Program Address}
    {line : Int → Int} {d d' : Nat}
    (h : (start program g { w with events := [] }).Within d)
    (h' : (State.flow f [.program (Stmt.mapLinesAll line program) g] w).Within d') (m : Nat) :
    let s := (start program g { w with events := [] }).run host m
    let s' := (State.flow f [.program (Stmt.mapLinesAll line program) g] w).run host m
    s'.ending.Alike s.ending ∧
      (Embedding.unlined []).world s'.world = (Embedding.unlined w.events).world s.world := by
  have hw : (Embedding.unlined []).world w =
      (Embedding.unlined w.events).world { w with events := [] } := by
    simp only [Embedding.world, Embedding.unlined, List.append_nil, List.nil_append]
  cases m with
  | zero => exact ⟨.outOfSteps, hw⟩
  | succ m =>
    -- the first step does not look at how the statement before has finished
    have hstep : ((Embedding.unlined []).state
          (State.flow f [.program (Stmt.mapLinesAll line program) g] w)).step
            ((Embedding.unlined []).host host) =
        ((Embedding.unlined w.events).state (start program g { w with events := [] })).step
          ((Embedding.unlined w.events).host host) := by
      change flowStep _ (.program (Stmt.mapLinesAll _ (Stmt.mapLinesAll line program)) _) [] _ =
        flowStep _ (.program (Stmt.mapLinesAll _ program) _) [] _
      rw [Stmt.mapLinesAll_mapLinesAll, hw]
      cases program <;> rfl
    have hs : (Embedding.unlined []).state
          ((State.flow f [.program (Stmt.mapLinesAll line program) g] w).run host (m + 1)) =
        (Embedding.unlined w.events).state
          ((start program g { w with events := [] }).run host (m + 1)) := by
      rw [run_succ, run_succ]
      exact Embedding.unlined_run h'.step h.step (Embedding.unlined_step h' h rfl rfl hstep) m
    refine ⟨Embedding.ending_alike hs, ?_⟩
    have hworld := congrArg State.world hs
    rwa [Embedding.world_state, Embedding.world_state] at hworld

/-- Two sources on successive lines of one source do what they do one after the other, if the first
one runs to its end: the events are the same, the run ends in the same way except for the line of a
failure, the same input has been read, and the globals are the same. -/
theorem execute_append_newline {i j : Interpreter} {sources : List Text} {origins : List Origin}
    {a b : Text} {first second : Program Address} {n : Nat} {events : List Event}
    (hi : i.Reachable sources origins) (ha : Program.ofSource a = .ok first)
    (hb : Program.ofSource b = .ok second) (hn : i.execute n first = (.finished, events, j)) :
    ∃ whole, Program.ofSource (a ++ "\n" ++ b) = .ok whole ∧
      ∃ k, ∀ m,
        let joined := i.execute (k + m) whole
        let apart := j.execute m second
        joined.1.Alike apart.1 ∧ joined.2.1 = events ++ apart.2.1 ∧ joined.2.2.Alike apart.2.2 ∧
          joined.2.2.globalBindings = apart.2.2.globalBindings := by
  have hj : j.Reachable (a :: sources) (origins ++ i.opened first n) := by
    have hj := hi.execute n ha
    rwa [hn] at hj
  obtain ⟨f, w, hw, rfl, rfl⟩ := exists_of_execute_eq_finished hn
  have hfinishes : (i.stateAt first 0).Finishes i.host [] (State.flow f [] w) := by
    rw [← hw]
    exact finishes_run (congrArg State.isFinal hw)
  -- the joined source comes to the second one in the world that the first one leaves
  obtain ⟨k, f', hk⟩ := run_program_append (Stmt.mapLinesAll (Program.shift a) second)
    (hi.within first 0) hfinishes
  have hwhole := hi.within (first ++ Stmt.mapLinesAll (Program.shift a) second) k
  rw [stateAt, start, hk] at hwhole
  have hsource : a ++ "\n" ++ b = a ++ Text.newline :: b := List.append_assoc ..
  refine ⟨_, hsource ▸ Program.ofSource_append_newline ha hb, k, fun m => ?_⟩
  obtain ⟨hend, hworld⟩ := run_alike i.host (hj.within second 0) hwhole m
  have hrun : i.stateAt (first ++ Stmt.mapLinesAll (Program.shift a) second) (k + m) =
      State.run i.host m
        (.flow f' [.program (Stmt.mapLinesAll (Program.shift a) second) i.globals] w) := by
    rw [stateAt, start, run_add, hk]
  rw [execute_eq, execute_eq, hrun]
  have halike := Alike.of_world i.host i.globals hworld
  refine ⟨hend, ?_, halike, halike.globalBindings_eq⟩
  have hevents := congrArg (fun w : World => w.events.reverse) hworld
  simpa [Embedding.world, Embedding.unlined, stateAt] using hevents

/-- A function of the first source that is called in the second one, and then a failure. -/
theorem execute_append_newline_undefined :
    let i := Interpreter.new ⟨1, 0, none⟩ { rest := [] } true
    ∃ whole k m, Program.ofSource ("fun f() \x7b\x7d" ++ "\n" ++ "f(); y;") = .ok whole ∧
      (i.execute (k + 12) whole).1 = .failed (.runtime m (.undefinedVariable "y")) ∧
      m.lexeme = "y" ∧ Event.output (i.execute (k + 12) whole).2.1 = "nil\n" := by
  intro i
  let first : Program Address := [.funDecl ⟨"f", 1⟩ (.mk [] [])]
  let second : Program Address :=
    [.expression (.call (.name ⟨"f", 1⟩ none) ⟨")", 1⟩ []), .expression (.name ⟨"y", 1⟩ none)]
  have ha : Program.ofSource "fun f() \x7b\x7d" = .ok first := by
    set_option maxRecDepth 2000 in cbv
  have hb : Program.ofSource "f(); y;" = .ok second := by
    set_option maxRecDepth 2000 in cbv
  have hi : i.Reachable [] [.session] := .new _ _ _
  have hn : i.execute 3 first = (.finished, [], (i.execute 3 first).2.2) := rfl
  obtain ⟨hfailed, hprinted⟩ : ((i.execute 3 first).2.2.execute 12 second).1 =
        .failed (.runtime ⟨"y", 1⟩ (.undefinedVariable "y")) ∧
      ((i.execute 3 first).2.2.execute 12 second).2.1 = [.printed "nil\n"] := by
    refine Prod.mk.inj ?_
    set_option maxRecDepth 2000 in cbv
  obtain ⟨whole, hwhole, k, h⟩ := execute_append_newline hi ha hb hn
  obtain ⟨hending, hshown, -⟩ := h 12
  rw [hfailed] at hending
  rw [hprinted] at hshown
  generalize he : (i.execute (k + 12) whole).1 = ending at hending
  cases hending with
  | runtime _ hm => exact ⟨whole, k, _, hwhole, he, hm, by rw [hshown]; rfl⟩

end Interpreter

end Lox
