import Lox.Proofs.Machine.Agreement
import Lox.Proofs.Machine.Depth
import Lox.Proofs.Scope.Jumps

/-!
# Where jumps lead

A `break` ends the loop that stands around it in the same function body and nothing else, and a
`return` brings its value, unchanged, to the call of the function that it stands in. So neither of
them ever leaves the statements of a program or module.
-/

namespace Lox

namespace Resume

/-- Whether the rest of a block waits. -/
def isBlock : Resume → Bool
  | block _ _ => true
  | _ => false

/-- Whether a loop waits for its body. -/
def isLoop : Resume → Bool
  | loop _ _ _ => true
  | _ => false

/-- The body of the loop that a `break` ends: only blocks may wait before it. -/
def loop? : List Resume → Option (Stmt Address)
  | block _ _ :: rest => loop? rest
  | loop _ body _ :: _ => some body
  | _ => none

/-- The function that a `return` ends: only blocks and loops may wait before its call. -/
def closure? : List Resume → Option Closure
  | block _ _ :: rest => closure? rest
  | loop _ _ _ :: rest => closure? rest
  | call closure _ :: _ => some closure
  | _ => none

/-- Whether a statement that has finished is one of a program or module, or all of it. -/
def isTop : List Resume → Bool
  | [] => true
  | program _ _ :: _ => true
  | importing _ :: _ => true
  | _ => false

theorem eq_none_of_isTop {rest : List Resume} (h : isTop rest) :
    loop? rest = none ∧ closure? rest = none := by
  cases rest with
  | nil => exact ⟨rfl, rfl⟩
  | cons r rest =>
    cases r with
    | program ss env | importing i => exact ⟨rfl, rfl⟩
    | _ => cases h

end Resume

/-- The loop and the function that wait stand around a statement in the source, and they are there
if the statement has jumps that lead to them. -/
structure Encloses (rest : List Resume) (s : Stmt Address) : Prop where
  inLoop : ∀ body, Resume.loop? rest = some body → body.Holds false s
  inFunction : ∀ closure, Resume.closure? rest = some closure →
    ∃ t ∈ closure.fn.body, t.Holds true s
  brk : ∀ keyword, s.Holds false (.brk keyword) → (Resume.loop? rest).isSome
  ret : ∀ keyword e, s.Holds true (.ret keyword e) → (Resume.closure? rest).isSome

namespace Encloses

variable {rest rest' : List Resume} {s t : Stmt Address}

theorem congr (h : Encloses rest s) (hl : Resume.loop? rest' = Resume.loop? rest)
    (hc : Resume.closure? rest' = Resume.closure? rest) : Encloses rest' s := by
  obtain ⟨hloop, hfn, hbrk, hret⟩ := h
  rw [← hl] at hloop hbrk
  rw [← hc] at hfn hret
  exact ⟨hloop, hfn, hbrk, hret⟩

/-- What encloses a statement encloses what stands in it with no loop between them. -/
theorem of_holds (h : Encloses rest s) (ht : s.Holds false t) : Encloses rest t where
  inLoop body hb := (h.inLoop body hb).trans ht
  inFunction closure hc := by
    obtain ⟨u, hu, hs⟩ := h.inFunction closure hc
    exact ⟨u, hu, hs.trans ht.through⟩
  brk keyword hk := h.brk keyword (ht.trans hk)
  ret keyword e hk := h.ret keyword e (ht.through.trans hk)

/-- A loop encloses its body. -/
theorem body {condition : Expr Address} {body : Stmt Address} {env : FrameId}
    (h : Encloses rest (.loop condition body)) :
    Encloses (.loop condition body env :: rest) body where
  inLoop body' hb := by
    obtain rfl := Option.some.inj hb
    exact .refl body
  inFunction closure hc := by
    obtain ⟨u, hu, hs⟩ := h.inFunction closure hc
    exact ⟨u, hu, hs.trans (.loop rfl (.refl body))⟩
  brk _ _ := rfl
  ret keyword e hk := h.ret keyword e (.loop rfl hk)

/-- A call encloses the statements of its function. -/
theorem call {closure : Closure} {demand : Demand} (h : closure.fn.KeepsBreaks)
    (hs : s ∈ closure.fn.body) : Encloses (.call closure demand :: rest) s where
  inLoop _ hb := by cases hb
  inFunction closure' hc := by
    obtain rfl := Option.some.inj hc
    exact ⟨s, hs, .refl s⟩
  brk keyword hk := absurd hk (h s hs keyword)
  ret _ _ _ := rfl

/-- Nothing needs to enclose a statement that no jump leads out of. -/
theorem of_keepsJumps (h : s.KeepsJumps) : Encloses [] s where
  inLoop _ hb := by cases hb
  inFunction _ hc := by cases hc
  brk keyword hk := absurd hk (h.1 keyword)
  ret keyword e hk := absurd hk (h.2 keyword e)

end Encloses

/-! ### What is confined -/

/-- A statement that waits for a value is enclosed as the source does it. -/
def Use.Confined (rest : List Resume) : Use → Prop
  | .branch yes no _ => Encloses rest yes ∧ ∀ s ∈ no, Encloses rest s
  | .test condition body _ => Encloses rest (.loop condition body)
  | .ret => (Resume.closure? rest).isSome
  | _ => True

/-- A jump has somewhere to lead to. -/
def Flow.Confined (rest : List Resume) : Flow → Prop
  | .normal => True
  | .returned _ => (Resume.closure? rest).isSome
  | .broke => (Resume.loop? rest).isSome

/-- Everything that waits is enclosed as the source does it. -/
inductive Resume.Confined : List Resume → Prop
  | nil : Confined []
  | block {ss : List (Stmt Address)} {env : FrameId} {rest : List Resume} :
      (∀ s ∈ ss, Encloses rest s) → Confined rest → Confined (.block ss env :: rest)
  | loop {condition : Expr Address} {body : Stmt Address} {env : FrameId} {rest : List Resume} :
      Encloses rest (.loop condition body) → Confined rest →
      Confined (.loop condition body env :: rest)
  | program {ss : List (Stmt Address)} {env : FrameId} {rest : List Resume} :
      (∀ s ∈ ss, s.KeepsJumps) → Confined rest → Confined (.program ss env :: rest)
  | call {closure : Closure} {demand : Demand} {rest : List Resume} :
      demand.use.Confined rest → Confined rest → Confined (.call closure demand :: rest)
  | importing {i : Importing} {rest : List Resume} :
      Confined rest → Confined (.importing i :: rest)

namespace State

/-- No jump can lead out. A state that fails has nothing left to do. -/
def Confined : State → Prop
  | eval _ _ demand rest _ => demand.use.Confined rest ∧ Resume.Confined rest
  | value _ demand rest _ => demand.use.Confined rest ∧ Resume.Confined rest
  | exec s _ rest _ => Encloses rest s ∧ Resume.Confined rest
  | flow f rest _ => f.Confined rest ∧ Resume.Confined rest
  | fail _ _ _ => True

variable {host : Host} {env : FrameId} {rest : List Resume} {s : State}

theorem confined_part {stmt : Stmt Address} {e : Expr Address} {u : Use} (hs : Encloses rest stmt)
    (h : stmt.part? env = some (e, u)) : u.Confined rest := by
  unfold Stmt.part? at h
  split at h <;> cases h
  case h_4 c yes no =>
    refine ⟨hs.of_holds (.yes (.refl yes)), ?_⟩
    rintro s rfl
    exact hs.of_holds (.no (.refl s))
  case h_5 => exact hs
  case h_6 keyword => exact hs.ret keyword _ (.refl _)
  all_goals trivial

/-- One step keeps jumps confined, if in the functions that are called no `break` leads out. -/
theorem Confined.step (h : s.Confined)
    (hc : ∀ paren callee arguments fn, s.call? = some (paren, callee, arguments) →
      s.world.store.entered? callee = some fn → fn.KeepsBreaks) : (s.step host).Confined := by
  have hmove := moves_step host s
  generalize s.opens host = opened, s.step host = s' at hmove
  cases hmove with
  -- calls
  | call hp =>
    have hkeeps := hc _ _ _ _ (call?_of_call hp) rfl
    exact ⟨trivial, .block (fun s hs => .call hkeeps hs) (.call h.1 h.2)⟩
  | construct hp hm =>
    have hkeeps := hc _ _ _ _ (call?_of_call hp) (Option.map_eq_some_iff.mpr ⟨_, hm, rfl⟩)
    exact ⟨trivial, .block (fun s hs => .call hkeeps hs) (.call h.1 h.2)⟩
  -- statements that have their value
  | branch hs =>
    rcases hs with rfl | hno
    · exact ⟨h.1.1, h.2⟩
    · exact ⟨h.1.2 _ hno, h.2⟩
  | round => exact ⟨Encloses.body h.1, .loop h.1 h.2⟩
  | shown | defined | noBranch | noRound => exact ⟨trivial, h.2⟩
  -- statements
  | demand hp => exact ⟨confined_part h.1 hp, h.2⟩
  | bind | declareClass => exact ⟨trivial, h.2⟩
  | block => exact ⟨trivial, .block (fun s hmem => h.1.of_holds (.block hmem (.refl s))) h.2⟩
  | ret => exact ⟨h.1.ret _ none (.refl _), h.2⟩
  | brk => exact ⟨h.1.brk _ (.refl _), h.2⟩
  | load hp =>
    obtain ⟨tree, ha, rfl⟩ := Program.Accepted.of_ofSource hp
    exact ⟨trivial, .program ha.keepsJumps (.importing h.2)⟩
  -- statements that have finished
  | next =>
    cases h.2 with
    | block hss hr =>
      obtain ⟨hs, hss⟩ := List.forall_mem_cons.mp hss
      exact ⟨hs.congr rfl rfl, .block hss hr⟩
  | nextTop =>
    cases h.2 with
    | program hss hr =>
      obtain ⟨hs, hss⟩ := List.forall_mem_cons.mp hss
      exact ⟨(Encloses.of_keepsJumps hs).congr rfl rfl, .program hss hr⟩
  | @leave f =>
    cases h.2 with
    | block _ hr => cases f <;> exact ⟨h.1, hr⟩
  | again => cases h.2 with | loop hs hr => exact ⟨hs, hr⟩
  | broke => cases h.2 with | loop _ hr => exact ⟨trivial, hr⟩
  | returned => cases h.2 with | loop _ hr => exact ⟨h.1, hr⟩
  | leaveTop => cases h.2 with | program _ hr => exact ⟨trivial, hr⟩
  | answer => cases h.2 with | call hu hr => exact ⟨hu, hr⟩
  | imported => cases h.2 with | importing hr => exact ⟨trivial, hr⟩
  -- failures and ends
  | callOverflow | noInput | constructOverflow | redeclare | repeatMethod | noLoad | fails =>
    trivial
  | @unwind f r => cases r <;> trivial
  | _ => exact h

end State

/-! ### Runs -/

/-- In a function that fits, no `break` leads out. -/
theorem Setting.FitsValue.keepsBreaks {Δ : Setting} {v : Value} {fn : Function Address}
    (h : Δ.FitsValue v) (hs : Δ.Sound) (hfn : Δ.store.entered? v = some fn) : fn.KeepsBreaks := by
  cases v with
  | function closure =>
    obtain ⟨p, f, ⟨source, tree, ha, hv, -⟩, heq⟩ := h
    obtain rfl : closure.fn = fn := Option.some.inj hfn
    rw [heq]
    exact Function.keepsBreaks_resolve (ha.faults_eq_nil hv)
  | classRef c =>
    obtain ⟨method, hm, rfl⟩ := Option.map_eq_some_iff.mp hfn
    obtain ⟨p, m, ⟨source, tree, ha, hv, -⟩, heq⟩ := hs.contents.findMethod hm
    rw [heq]
    exact Function.keepsBreaks_resolve (ha.faults_eq_nil hv)
  | _ => cases hfn

namespace State

variable {host : Host} {sources : List Text} {origins : List Origin} {s : State}

/-- In the functions that are called in a state that fits, no `break` leads out. -/
theorem Agrees.keepsBreaks (h : s.Agrees sources origins) {paren : Mark} {callee : Value}
    {arguments : List Value} {fn : Function Address}
    (hcall : s.call? = some (paren, callee, arguments))
    (hfn : s.world.store.entered? callee = some fn) : fn.KeepsBreaks := by
  obtain ⟨hs, hfits⟩ := h
  have hcallee : (s.world.setting sources origins).FitsValue callee := by
    unfold call? at hcall
    split at hcall
    · cases hcall
      exact hfits.1
    · cases hcall
      exact (hfits.2.1.1 _ List.mem_cons_self).1
    · cases hcall
  exact hcallee.keepsBreaks hs hfn

/-- A run of accepted sources keeps jumps confined. -/
theorem Confined.run (h : s.Confined) (ha : s.Agrees sources origins) (n : Nat) :
    (s.run host n).Confined := by
  induction n generalizing s origins with
  | zero => exact h
  | succ n ih =>
    rw [run_succ]
    exact ih (h.step fun _ _ _ _ => ha.keepsBreaks) (ha.step host)

/-! ### Where jumps lead -/

variable {rest : List Resume}

/-- A `break` passes the blocks before its loop and ends the loop. -/
theorem run_broke (host : Host) (w : World) {body : Stmt Address}
    (h : Resume.loop? rest = some body) :
    ∃ blocks condition env outer, rest = blocks ++ .loop condition body env :: outer ∧
      (∀ r ∈ blocks, r.isBlock) ∧
      (flow .broke rest w).run host (blocks.length + 1) = flow .normal outer w := by
  induction rest with
  | nil => cases h
  | cons r rest ih =>
    cases r with
    | block ss env =>
      obtain ⟨blocks, condition, env', outer, rfl, hblocks, hrun⟩ := ih h
      refine ⟨.block ss env :: blocks, condition, env', outer, rfl,
        List.forall_mem_cons.mpr ⟨rfl, hblocks⟩, ?_⟩
      rw [List.length_cons, run_succ, ← hrun]
      cases ss <;> rfl
    | loop condition body' env =>
      obtain rfl := Option.some.inj h
      exact ⟨[], condition, env, rest, rfl, nofun, rfl⟩
    | _ => cases h

/-- A `return` passes the blocks and loops before the call of its function. -/
theorem run_returned (host : Host) (w : World) {closure : Closure}
    (h : Resume.closure? rest = some closure) (v : Value) :
    ∃ inner demand outer, rest = inner ++ .call closure demand :: outer ∧
      (∀ r ∈ inner, r.isBlock ∨ r.isLoop) ∧
      (flow (.returned v) rest w).run host inner.length =
        flow (.returned v) (.call closure demand :: outer) w := by
  induction rest with
  | nil => cases h
  | cons r rest ih =>
    cases r with
    | block ss env =>
      obtain ⟨inner, demand, outer, rfl, hinner, hrun⟩ := ih h
      refine ⟨.block ss env :: inner, demand, outer, rfl,
        List.forall_mem_cons.mpr ⟨.inl rfl, hinner⟩, ?_⟩
      rw [List.length_cons, run_succ, ← hrun]
      cases ss <;> rfl
    | loop condition body env =>
      obtain ⟨inner, demand, outer, rfl, hinner, hrun⟩ := ih h
      refine ⟨.loop condition body env :: inner, demand, outer, rfl,
        List.forall_mem_cons.mpr ⟨.inr rfl, hinner⟩, ?_⟩
      rw [List.length_cons, run_succ, ← hrun]
      rfl
    | call closure' demand =>
      obtain rfl := Option.some.inj h
      exact ⟨[], demand, rest, rfl, nofun, rfl⟩
    | _ => cases h

end State

namespace Resume.Confined

variable {r : Resume} {rest : List Resume}

theorem tail (h : Confined (r :: rest)) : Confined rest := by
  cases h with
  | block _ h | loop _ h | program _ h | call _ h | importing h => exact h

theorem of_append {inner : List Resume} (h : Confined (inner ++ rest)) : Confined rest := by
  induction inner with
  | nil => exact h
  | cons r inner ih => exact ih h.tail

/-- A loop that waits stands in the function that is being called. -/
theorem exists_holds_loop {inner outer : List Resume} {condition : Expr Address}
    {body : Stmt Address} {env : FrameId}
    (h : Confined (inner ++ .loop condition body env :: outer)) {closure : Closure}
    (hc : closure? outer = some closure) :
    ∃ t ∈ closure.fn.body, t.Holds true (.loop condition body) := by
  cases h.of_append with
  | loop hloop => exact hloop.inFunction closure hc

end Resume.Confined

/-- Where the jumps of a state lead. -/
structure State.Delivers (host : Host) (s : State) : Prop where
  /-- A statement of a program or module finishes normally. -/
  top : ∀ f rest w, s = flow f rest w → Resume.isTop rest → f = .normal
  /-- The body of a function finishes normally or returns. -/
  body : ∀ f closure demand rest w, s = flow f (.call closure demand :: rest) w →
    f = .normal ∨ ∃ v, f = .returned v
  /-- A `break` that is executed ends the loop that stands around it, in the same function, and
  nothing else. -/
  brk : ∀ keyword env rest w, s = exec (.brk keyword) env rest w →
    ∃ blocks condition body env' outer, rest = blocks ++ .loop condition body env' :: outer ∧
      (∀ r ∈ blocks, r.isBlock) ∧ body.Holds false (.brk keyword) ∧
      (∀ closure, Resume.closure? outer = some closure →
        ∃ t ∈ closure.fn.body, t.Holds true (.loop condition body)) ∧
      s.run host (blocks.length + 2) = flow .normal outer w
  /-- A `break` on its way meets its loop before anything but blocks. -/
  broke : ∀ rest w, s = flow .broke rest w →
    ∃ blocks condition body env outer, rest = blocks ++ .loop condition body env :: outer ∧
      (∀ r ∈ blocks, r.isBlock) ∧ s.run host (blocks.length + 1) = flow .normal outer w
  /-- A `return` that is executed stands in the function whose call it ends. -/
  ret : ∀ keyword e env rest w, s = exec (.ret keyword e) env rest w →
    ∃ inner closure demand outer, rest = inner ++ .call closure demand :: outer ∧
      (∀ r ∈ inner, r.isBlock ∨ r.isLoop) ∧ ∃ t ∈ closure.fn.body, t.Holds true (.ret keyword e)
  /-- A `return` on its way brings a value, which reaches the call as it is. -/
  returned : ∀ v rest w, s = flow (.returned v) rest w → w.store.Has v ∧
    ∃ inner closure demand outer, rest = inner ++ .call closure demand :: outer ∧
      (∀ r ∈ inner, r.isBlock ∨ r.isLoop) ∧
      s.run host inner.length = flow (.returned v) (.call closure demand :: outer) w ∧
      (closure.initializer = false →
        s.run host (inner.length + 1) = value v demand outer w.leave)

namespace State

variable {host : Host} {s : State} {d : Nat}

theorem Confined.delivers (h : s.Confined) (hw : s.Within d) : s.Delivers host where
  top := by
    rintro f rest w rfl ht
    obtain ⟨hloop, hclosure⟩ := Resume.eq_none_of_isTop ht
    have hf := h.1
    cases f with
    | normal => rfl
    | returned v => rw [Flow.Confined, hclosure] at hf; cases hf
    | broke => rw [Flow.Confined, hloop] at hf; cases hf
  body := by
    rintro f closure demand rest w rfl
    cases f with
    | normal => exact .inl rfl
    | returned v => exact .inr ⟨v, rfl⟩
    | broke => cases h.1
  brk := by
    rintro keyword env rest w rfl
    obtain ⟨body, hbody⟩ := Option.isSome_iff_exists.mp (h.1.brk keyword (.refl _))
    obtain ⟨blocks, condition, env', outer, rfl, hblocks, hrun⟩ := run_broke host w hbody
    refine ⟨blocks, condition, body, env', outer, rfl, hblocks, h.1.inLoop body hbody,
      fun closure => h.2.exists_holds_loop, ?_⟩
    rw [run_succ]
    exact hrun
  broke := by
    rintro rest w rfl
    obtain ⟨body, hbody⟩ := Option.isSome_iff_exists.mp h.1
    obtain ⟨blocks, condition, env, outer, hrest, hblocks, hrun⟩ := run_broke host w hbody
    exact ⟨blocks, condition, body, env, outer, hrest, hblocks, hrun⟩
  ret := by
    rintro keyword e env rest w rfl
    obtain ⟨closure, hclosure⟩ := Option.isSome_iff_exists.mp (h.1.ret keyword e (.refl _))
    obtain ⟨inner, demand, outer, hrest, hinner, -⟩ := run_returned host w hclosure .nil
    exact ⟨inner, closure, demand, outer, hrest, hinner, h.1.inFunction closure hclosure⟩
  returned := by
    rintro v rest w rfl
    obtain ⟨closure, hclosure⟩ := Option.isSome_iff_exists.mp h.1
    obtain ⟨inner, demand, outer, hrest, hinner, hrun⟩ := run_returned host w hclosure v
    refine ⟨hw.2, inner, closure, demand, outer, hrest, hinner, hrun, fun hinit => ?_⟩
    rw [run_add, hrun]
    change value (callResult closure (.returned v) w.store) demand outer w.leave = _
    rw [callResult, hinit]
    rfl

end State

/-- In every run of an accepted source, jumps lead to where they stand: a `break` to the loop around
it and a `return` to the call of the function around it. -/
theorem Interpreter.delivers_jumps {i : Interpreter} {sources : List Text} {origins : List Origin}
    (hi : i.Reachable sources origins) {source : Text} {program : Program Address}
    (hp : Program.ofSource source = .ok program) (n : Nat) :
    (i.stateAt program n).Delivers i.host := by
  obtain ⟨tree, ha, hprogram⟩ := Program.Accepted.of_ofSource hp
  have hstart : (State.start program i.globals i.world).Confined := by
    rw [hprogram]
    exact ⟨trivial, .program ha.keepsJumps .nil⟩
  have hagrees := State.agrees_start hi.sound.1 hi.sound.2 hp
  exact (hstart.run hagrees n).delivers (hi.within program n)

/-- A `break` in a loop in a loop of a function that is called in a loop, and the `return` behind
it. -/
theorem Interpreter.delivers_jumps_nested :
    ∃ program, Program.ofSource
        "fun f() { while (true) { while (true) { break; } return true; } } while (true) f();" =
          .ok program ∧
      let i := Interpreter.new ⟨10, 0, none⟩ { rest := [] } false
      (∃ env rest w, i.stateAt program 21 = .exec (.brk ⟨"break", 1⟩) env rest w) ∧
        (i.stateAt program 21).Delivers i.host ∧
        (∃ rest w, i.stateAt program 28 = .flow (.returned (.bool true)) rest w) ∧
        (i.stateAt program 28).Delivers i.host := by
  have h : Program.ofSource
      "fun f() { while (true) { while (true) { break; } return true; } } while (true) f();" = .ok
        [.funDecl ⟨"f", 1⟩ (.mk []
          [.loop (.literal (.bool true)) (.block
            [.loop (.literal (.bool true)) (.block [.brk ⟨"break", 1⟩]),
            .ret ⟨"return", 1⟩ (some (.literal (.bool true)))])]),
        .loop (.literal (.bool true)) (.expression (.call (.name ⟨"f", 1⟩ none) ⟨")", 1⟩ []))] := by
    set_option maxRecDepth 8000 in cbv
  have hnew := Interpreter.Reachable.new ⟨10, 0, none⟩ { rest := [] } false
  exact ⟨_, h, ⟨_, _, _, rfl⟩, delivers_jumps hnew h 21, ⟨_, _, rfl⟩, delivers_jumps hnew h 28⟩

end Lox
