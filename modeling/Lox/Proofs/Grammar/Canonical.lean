import Mathlib.Data.List.Forall2
import Lox.Proofs.Grammar.Completeness
import Lox.Proofs.Grammar.Surface

/-!
# Canonical trees are read back

A canonical tree, written out in any way, is derived by the grammar; so the parser returns it.
-/

namespace Lox

namespace Grammar

/-- The symbol of the expressions of a rank. -/
def symbolAt : Nat → Symbol
  | 0 => .primary
  | 1 => .call
  | 2 => .unary
  | 3 => .chain .product
  | 4 => .chain .sum
  | 5 => .chain .comparison
  | 6 => .chain .equality
  | 7 => .chain .conjunction
  | 8 => .chain .disjunction
  | 9 => .conditional
  | 10 => .assignment
  | _ => .expression

theorem symbolAt_index (ℓ : Level) : symbolAt (ℓ.index + 2) = .chain ℓ := by
  cases ℓ <;> rfl

theorem symbolAt_operand (ℓ : Level) : symbolAt (ℓ.index + 1) = ℓ.operand := by
  cases ℓ <;> rfl

variable {n : Nat} {g : Bool} {ts : List Token} {e : Expr Unit}

theorem Derives.climb_one {a : Nat} (h : Derives n g (symbolAt a) ts (.expr e)) (ha : a < 11) :
    Derives (n + Surface.passes a (a + 1)) g (symbolAt (a + 1)) ts (.expr e) := by
  match a, h with
  | 0, h => exact .callee h
  | 1, h => exact .operand h
  | 2, h => exact .single .product h
  | 3, h => exact .single .sum h
  | 4, h => exact .single .comparison h
  | 5, h => exact .single .equality h
  | 6, h => exact .single .conjunction h
  | 7, h => exact .single .disjunction h
  | 8, h => exact .disjunction h
  | 9, h => exact .unassigned h
  | 10, h => exact .lone h
  | a + 11, _ => omega

/-- An expression may stand where a looser one may, if there is room for what is passed. -/
theorem Derives.climb {a b : Nat} (h : Derives n g (symbolAt a) ts (.expr e)) (hab : a ≤ b)
    (hb : b ≤ 11) : Derives (n + Surface.passes a b) g (symbolAt b) ts (.expr e) := by
  induction b with
  | zero =>
    obtain rfl : a = 0 := Nat.le_zero.mp hab
    exact h
  | succ b ih =>
    rcases Nat.lt_or_eq_of_le hab with hlt | rfl
    · have hpasses : Surface.passes a (b + 1) =
          Surface.passes a b + Surface.passes b (b + 1) := by
        unfold Surface.passes
        grind
      have hstep := (ih (by omega) (by omega)).climb_one (by omega)
      rwa [hpasses, ← Nat.add_assoc]
    · have hnone : Surface.passes (b + 1) (b + 1) = 0 := by
        unfold Surface.passes
        grind
      rwa [hnone]

end Grammar

namespace Surface

open Grammar

/-- Tokens that are as the items ask, one by one. -/
abbrev Spelled (items : List Item) (ts : List Token) : Prop := List.Forall₂ Item.Spelled items ts

@[simp] theorem spelled_nil {ts : List Token} : Spelled [] ts ↔ ts = [] :=
  List.forall₂_nil_left_iff

@[simp] theorem spelled_cons {item : Item} {items : List Item} {ts : List Token} :
    Spelled (item :: items) ts ↔
      ∃ t ts', item.Spelled t ∧ Spelled items ts' ∧ ts = t :: ts' :=
  List.forall₂_cons_left_iff

@[simp] theorem spelled_append {items items' : List Item} {ts : List Token} :
    Spelled (items ++ items') ts ↔
      ∃ ts₁ ts₂, Spelled items ts₁ ∧ Spelled items' ts₂ ∧ ts = ts₁ ++ ts₂ := by
  induction items generalizing ts with
  | nil => simp
  | cons item items ih =>
    rw [List.cons_append, spelled_cons]
    constructor
    · rintro ⟨t, ts', ht, h, rfl⟩
      obtain ⟨ts₁, ts₂, h₁, h₂, rfl⟩ := ih.mp h
      exact ⟨t :: ts₁, ts₂, .cons ht h₁, h₂, rfl⟩
    · rintro ⟨ts₁, ts₂, h₁, h₂, rfl⟩
      obtain ⟨t, ts₁, ht, hrest, rfl⟩ := spelled_cons.mp h₁
      exact ⟨t, ts₁ ++ ts₂, ht, ih.mpr ⟨ts₁, ts₂, hrest, h₂, rfl⟩, rfl⟩

theorem spelled_token (items : List Item) : Spelled items (items.map Item.token) := by
  induction items with
  | nil => exact .nil
  | cons item items ih => exact .cons item.spelled_token ih

/-- A canonical expression that is derived wherever it is written with enough room. -/
def Expr.Readable (e : Expr) : Prop :=
  ∀ ⦃n : Nat⦄ ⦃g : Bool⦄ ⦃ts : List Token⦄, e.canonical g = true → e.nesting ≤ n →
    Spelled e.items ts → Derives n g (symbolAt e.rank) ts (.expr e.tree)

/-- Canonical arguments that are derived when they follow others. -/
def Expr.MoreReadable (es : List Expr) : Prop :=
  ∀ ⦃n : Nat⦄ ⦃ts ts₀ : List Token⦄ ⦃es₀ : List (Lox.Expr Unit)⦄, Expr.allCanonical es = true →
    Expr.allNesting es ≤ n → es₀.length + es.length ≤ maxArguments →
    Derives n true .list ts₀ (.exprs es₀) → Spelled (Expr.moreItems es) ts →
      Derives n true .list (ts₀ ++ ts) (.exprs (es₀ ++ Expr.trees es))

/-- A canonical expression that may be missing and is derived wherever it is written. -/
def Expr.ClauseReadable (o : Option Expr) : Prop :=
  ∀ ⦃n : Nat⦄ ⦃ts : List Token⦄, Expr.clauseCanonical o = true → Expr.clauseNesting o ≤ n →
    Spelled (Expr.clauseItems o) ts → Derives n false .clause ts (.clause (Expr.tree? o))

/-- A canonical function that is derived wherever it is written. -/
def Function.Readable (fn : Function) : Prop :=
  ∀ ⦃n : Nat⦄ ⦃g : Bool⦄ ⦃ts : List Token⦄, fn.canonical = true → fn.nesting ≤ n →
    Spelled fn.items ts → Derives n g .function ts (.fn fn.tree)

/-- Canonical methods that are derived when they follow others. -/
def Method.AllReadable (ms : List Method) : Prop :=
  ∀ ⦃n : Nat⦄ ⦃ts ts₀ : List Token⦄ ⦃ms₀ : List (Lox.Method Unit)⦄, Method.allCanonical ms = true →
    Method.allNesting ms ≤ n → Derives n false .methods ts₀ (.methods ms₀) →
    Spelled (Method.allItems ms) ts →
      Derives n false .methods (ts₀ ++ ts) (.methods (ms₀ ++ Method.trees ms))

/-- The symbol of a statement. -/
def Stmt.symbol (s : Stmt) : Symbol :=
  if s.isStatement then .statement s.endsInIf else .declaration

/-- A canonical statement that is derived wherever it is written. -/
def Stmt.Readable (s : Stmt) : Prop :=
  ∀ ⦃n : Nat⦄ ⦃ts : List Token⦄, s.canonical = true → s.nesting ≤ n → Spelled s.items ts →
    Derives n false s.symbol ts (.stmt s.tree)

/-- A canonical first part of a `for` statement that is derived wherever it is written. -/
def Stmt.InitialReadable (o : Option Stmt) : Prop :=
  ∀ ⦃n : Nat⦄ ⦃ts : List Token⦄, Stmt.initialCanonical o = true → Stmt.initialNesting o ≤ n →
    Spelled (Stmt.initialItems o) ts → Derives n false .initializer ts (.initial (Stmt.tree? o))

/-- Canonical statements that are derived when they follow others. -/
def Stmt.AllReadable (ss : List Stmt) : Prop :=
  ∀ ⦃n : Nat⦄ ⦃ts ts₀ : List Token⦄ ⦃ss₀ : List (Lox.Stmt Unit)⦄, Stmt.allCanonical ss = true →
    Stmt.allNesting ss ≤ n → Derives n false .declarations ts₀ (.stmts ss₀) →
    Spelled (Stmt.allItems ss) ts →
      Derives n false .declarations (ts₀ ++ ts) (.stmts (ss₀ ++ Stmt.trees ss))

/-! ### Expressions -/

namespace Expr.Readable

variable {e l r : Expr} {n : Nat} {g : Bool} {ts : List Token}

/-- An expression in a place for expressions of a given rank. -/
theorem at_rank (h : e.Readable) (b : Nat) (hr : e.rank ≤ b) (hb : b ≤ 11)
    (hc : e.canonical g = true) (hn : e.nesting + passes e.rank b ≤ n) (hs : Spelled e.items ts) :
    Derives n g (symbolAt b) ts (.expr e.tree) := by
  have hroom : n - passes e.rank b + passes e.rank b = n := by omega
  have hd := (h hc (n := n - passes e.rank b) (by omega) hs).climb hr hb
  rwa [hroom] at hd

theorem rank_le (e : Expr) : e.rank ≤ 11 := by
  cases e with
  | binary op => cases op <;> simp [rank, BinaryOp.level?, Level.index]
  | logical op => cases op <;> simp [rank, LogicalOp.level, Level.index]
  | _ => simp [rank]

/-- An expression in a place for any expression. -/
theorem expression (h : e.Readable) (hc : e.canonical g = true)
    (hn : e.nesting + passes e.rank 11 ≤ n) (hs : Spelled e.items ts) :
    Derives n g .expression ts (.expr e.tree) :=
  h.at_rank 11 (rank_le e) (Nat.le_refl _) hc hn hs

theorem literal (value : Literal) : (Expr.literal value).Readable := by
  intro n g ts _ _ hs
  simp only [items, spelled_cons, spelled_nil] at hs
  obtain ⟨t, _, ht, rfl, rfl⟩ := hs
  match value, ht with
  | .nil, ht => exact .nilLit ht
  | .bool true, ht => exact .trueLit ht
  | .bool false, ht => exact .falseLit ht
  | .number x, ⟨ht, hx⟩ => exact hx ▸ .numberLit ht
  | .string x, ⟨ht, hx⟩ => exact hx ▸ .stringLit ht

theorem name (mark : Mark) : (Expr.name mark).Readable := by
  intro n g ts _ _ hs
  simp only [items, spelled_cons, spelled_nil] at hs
  obtain ⟨t, _, ⟨ht, rfl⟩, rfl, rfl⟩ := hs
  exact .name ht

theorem receiver (keyword : Mark) : (Expr.receiver keyword).Readable := by
  intro n g ts _ _ hs
  simp only [items, spelled_cons, spelled_nil] at hs
  obtain ⟨t, _, ⟨ht, rfl⟩, rfl, rfl⟩ := hs
  exact .receiver ht

theorem inherited (keyword method : Mark) : (Expr.inherited keyword method).Readable := by
  intro n g ts _ _ hs
  simp only [items, spelled_cons, spelled_nil] at hs
  obtain ⟨t, _, ⟨ht, rfl⟩, ⟨dot, _, hd, ⟨m, _, ⟨hm, rfl⟩, rfl, rfl⟩, rfl⟩, rfl⟩ := hs
  exact .inherited ht hd hm

theorem group (h : e.Readable) : (Expr.group e).Readable := by
  intro n g ts hc hn hs
  simp only [items, spelled_cons, spelled_append, spelled_nil] at hs
  obtain ⟨l, _, hl, ⟨ts, _, hs, ⟨r, _, hr, rfl, rfl⟩, rfl⟩, rfl⟩ := hs
  exact .group hl (h.expression hc hn hs) hr

theorem function {fn : Function} (keyword : Mark) (h : fn.Readable) :
    (Expr.function keyword fn).Readable := by
  intro n g ts hc hn hs
  simp only [items, spelled_cons] at hs
  obtain ⟨t, _, ⟨ht, rfl⟩, ⟨l, ts, hl, hs, rfl⟩, rfl⟩ := hs
  exact .anonymous ht hl (h hc hn hs)

theorem call {es : List Expr} (paren : Mark) (h : e.Readable)
    (hes : ∀ e' es', es = e' :: es' → e'.Readable ∧ MoreReadable es') :
    (Expr.call e paren es).Readable := by
  intro n g ts hc hn hs
  simp only [canonical, Bool.and_eq_true, decide_eq_true_eq] at hc
  simp only [nesting, Nat.max_le] at hn
  obtain ⟨⟨⟨hrank, hce⟩, hlen⟩, hces⟩ := hc
  cases es with
  | nil =>
    simp only [items, spelled_cons, spelled_append, spelled_nil] at hs
    obtain ⟨ts, _, hs, ⟨l, _, hl, ⟨_, _, rfl, ⟨r, _, ⟨hr, rfl⟩, rfl, rfl⟩, rfl⟩, rfl⟩, rfl⟩ := hs
    exact .call (h.at_rank 1 hrank (by decide) hce hn.1 hs) hl .noArguments hr
  | cons e' es' =>
    obtain ⟨he', hes'⟩ := hes e' es' rfl
    simp only [allCanonical, Bool.and_eq_true] at hces
    simp only [allNesting, Nat.max_le] at hn
    simp only [items, spelled_cons, spelled_append, spelled_nil] at hs
    obtain ⟨ts, _, hs, ⟨l, _, hl, ⟨_, _, ⟨ts₁, ts₂, hs₁, hs₂, rfl⟩, ⟨r, _, ⟨hr, rfl⟩, rfl, rfl⟩,
      rfl⟩, rfl⟩, rfl⟩ := hs
    have hfirst := Derives.firstItem (he'.expression hces.1 hn.2.1 hs₁)
    have hlist := hes' hces.2 hn.2.2 (by simpa [Nat.add_comm] using hlen) hfirst hs₂
    exact .call (h.at_rank 1 hrank (by decide) hce hn.1 hs) hl (.arguments hlist) hr

theorem get (property : Mark) (h : e.Readable) : (Expr.get e property).Readable := by
  intro n g ts hc hn hs
  simp only [canonical, Bool.and_eq_true, decide_eq_true_eq] at hc
  simp only [items, spelled_cons, spelled_append, spelled_nil] at hs
  obtain ⟨ts, _, hs, ⟨dot, _, hd, ⟨m, _, ⟨hm, rfl⟩, rfl, rfl⟩, rfl⟩, rfl⟩ := hs
  exact .property (h.at_rank 1 hc.1 (by decide) hc.2 hn hs) hd hm

theorem unary (op : UnaryOp) (mark : Mark) (h : e.Readable) : (Expr.unary op mark e).Readable := by
  intro n g ts hc hn hs
  simp only [canonical, Bool.and_eq_true, decide_eq_true_eq] at hc
  simp only [items, spelled_cons] at hs
  obtain ⟨t, ts, ⟨ht, rfl⟩, hs, rfl⟩ := hs
  obtain ⟨n, rfl⟩ := Nat.exists_eq_add_one.2 (Nat.zero_lt_of_lt hn)
  exact .unary ht (h.at_rank 2 hc.1 (by decide) hc.2 (Nat.le_of_succ_le_succ hn) hs)

theorem binary (op : BinaryOp) (mark : Mark) (hl : l.Readable) (hr : r.Readable) :
    (Expr.binary op mark l r).Readable := by
  intro n g ts hc hn hs
  simp only [canonical, Bool.and_eq_true] at hc
  simp only [nesting, Nat.max_le] at hn
  simp only [items, spelled_cons, spelled_append] at hs
  obtain ⟨ts, _, hs, ⟨t, ts', ⟨ht, rfl⟩, hs', rfl⟩, rfl⟩ := hs
  obtain ⟨⟨hcl, hcr⟩, hplace⟩ := hc
  unfold rank
  cases hop : op.level? with
  | some ℓ =>
    simp only [hop, Bool.and_eq_true, decide_eq_true_eq] at hplace hn ⊢
    have hℓ : ℓ.index ≤ 6 := by cases ℓ <;> decide
    rw [symbolAt_index]
    -- operators of a level group to the left: only the left operand may be of that level
    have h₁ := hl.at_rank (ℓ.index + 2) hplace.1 (by omega) hcl hn.1 hs
    have h₂ := hr.at_rank (ℓ.index + 1) (by omega) (by omega) hcr hn.2 hs'
    rw [symbolAt_index] at h₁
    rw [symbolAt_operand] at h₂
    exact .binary h₁ hop ht h₂
  | none =>
    -- the comma stands apart from the levels, and within arguments it is no operator
    simp only [hop, Bool.and_eq_true, Bool.not_eq_true', decide_eq_true_eq] at hplace hn ⊢
    obtain ⟨⟨rfl, hopen⟩, hrank⟩ := hplace
    obtain rfl : op = .sequence := by cases op <;> first | rfl | cases hop
    exact .sequence (hl.expression hcl hn.1 hs) hopen ht
      (hr.at_rank 10 (by omega) (by decide) hcr hn.2 hs')

theorem logical (op : LogicalOp) (mark : Mark) (hl : l.Readable) (hr : r.Readable) :
    (Expr.logical op mark l r).Readable := by
  intro n g ts hc hn hs
  simp only [canonical, Bool.and_eq_true, decide_eq_true_eq] at hc
  simp only [nesting, Nat.max_le] at hn
  simp only [items, spelled_cons, spelled_append] at hs
  obtain ⟨ts, _, hs, ⟨t, ts', ⟨ht, rfl⟩, hs', rfl⟩, rfl⟩ := hs
  obtain ⟨⟨⟨hcl, hcr⟩, hrankl⟩, hrankr⟩ := hc
  have hℓ : op.level.index ≤ 6 := by cases op <;> decide
  have h₁ := hl.at_rank (op.level.index + 2) hrankl (by omega) hcl hn.1 hs
  have h₂ := hr.at_rank (op.level.index + 1) (by omega) (by omega) hcr hn.2 hs'
  rw [symbolAt_index] at h₁
  rw [symbolAt_operand] at h₂
  rw [rank, symbolAt_index]
  exact .logical h₁ rfl ht h₂

theorem conditional {c : Expr} (hc : c.Readable) (hl : l.Readable) (hr : r.Readable) :
    (Expr.conditional c l r).Readable := by
  intro n g ts hcan hn hs
  simp only [canonical, Bool.and_eq_true, decide_eq_true_eq] at hcan
  simp only [nesting, Nat.max_le] at hn
  simp only [items, spelled_cons, spelled_append] at hs
  obtain ⟨ts, _, hs, ⟨q, _, hq, ⟨ts₁, _, hs₁, ⟨colon, ts₂, hcolon, hs₂, rfl⟩, rfl⟩, rfl⟩, rfl⟩ := hs
  obtain ⟨⟨⟨hrank, hcc⟩, hcl⟩, hcr⟩ := hcan
  exact .conditional (hc.at_rank 8 hrank (by decide) hcc hn.1 hs) hq
    (hl.expression hcl hn.2.1 hs₁) hcolon (hr.expression hcr hn.2.2 hs₂)

theorem assign (mark : Mark) (h : e.Readable) : (Expr.assign mark e).Readable := by
  intro n g ts hc hn hs
  simp only [canonical, Bool.and_eq_true, decide_eq_true_eq] at hc
  rw [items, spelled_append] at hs
  obtain ⟨ts, _, hs, hvalue, rfl⟩ := hs
  obtain ⟨t, ts', ht, hs', rfl⟩ := spelled_cons.mp hvalue
  obtain ⟨n, rfl⟩ := Nat.exists_eq_add_one.2 (Nat.zero_lt_of_lt hn)
  simp only [nesting, Nat.add_le_add_iff_right, Nat.max_le] at hn
  have htarget := (name mark).at_rank 9 (by simp [rank]) (by decide) (g := g) rfl
    (by simpa [nesting, rank] using hn.1) hs
  exact .assign htarget ht (h.at_rank 10 hc.1 (by decide) hc.2 hn.2 hs')

theorem set {o : Expr} (property : Mark) (ho : o.Readable) (h : e.Readable) :
    (Expr.set o property e).Readable := by
  intro n g ts hc hn hs
  simp only [canonical, Bool.and_eq_true, decide_eq_true_eq] at hc
  rw [items, spelled_append] at hs
  obtain ⟨ts, _, hs, hvalue, rfl⟩ := hs
  obtain ⟨t, ts', ht, hs', rfl⟩ := spelled_cons.mp hvalue
  obtain ⟨n, rfl⟩ := Nat.exists_eq_add_one.2 (Nat.zero_lt_of_lt hn)
  simp only [nesting, Nat.add_le_add_iff_right, Nat.max_le] at hn
  obtain ⟨⟨⟨hrank, hco⟩, hrankv⟩, hcv⟩ := hc
  -- a target is derived as a property that is read
  have htarget := (get property ho).at_rank 9 (by simp [rank]) (by decide) (g := g)
    (by simp [canonical, hrank, hco]) (by simpa [nesting, rank] using hn.1) hs
  exact .set htarget ht (h.at_rank 10 hrankv (by decide) hcv hn.2 hs')

end Expr.Readable

theorem Expr.MoreReadable.nil : Expr.MoreReadable [] := by
  intro n ts ts₀ es₀ _ _ _ h hs
  obtain rfl := spelled_nil.mp hs
  simpa [Expr.trees] using h

theorem Expr.MoreReadable.cons {e : Expr} {es : List Expr} (he : e.Readable)
    (hes : Expr.MoreReadable es) : Expr.MoreReadable (e :: es) := by
  intro n ts ts₀ es₀ hc hn hlen h hs
  simp only [Expr.allCanonical, Bool.and_eq_true] at hc
  simp only [Expr.allNesting, Nat.max_le] at hn
  simp only [Expr.moreItems, spelled_cons, spelled_append] at hs
  obtain ⟨t, _, ht, ⟨ts₁, ts₂, hs₁, hs₂, rfl⟩, rfl⟩ := hs
  simp only [List.length_cons] at hlen
  have hnext := h.nextItem (by omega) ht (he.expression hc.1 hn.1 hs₁)
  have hrest := hes hc.2 hn.2 (by simp only [List.length_append, List.length_singleton]; omega)
    hnext hs₂
  simpa [Expr.trees] using hrest

theorem Expr.ClauseReadable.missing : Expr.ClauseReadable none := by
  intro n ts _ _ hs
  obtain rfl := spelled_nil.mp hs
  exact .noClause

theorem Expr.ClauseReadable.present {e : Expr} (he : e.Readable) : Expr.ClauseReadable (some e) :=
  fun _ _ hc hn hs => .clause (he.expression hc hn hs)

/-! ### Functions -/

theorem moreNames_derives {n : Nat} {g : Bool} {ms : List Mark} {ts ts₀ : List Token}
    {ms₀ : List Mark} (h : Derives n g .names ts₀ (.names ms₀))
    (hlen : ms₀.length + ms.length ≤ maxArguments) (hs : Spelled (moreNames ms) ts) :
    Derives n g .names (ts₀ ++ ts) (.names (ms₀ ++ ms)) := by
  induction ms generalizing ts ts₀ ms₀ with
  | nil =>
    obtain rfl := spelled_nil.mp hs
    simpa using h
  | cons m ms ih =>
    simp only [moreNames, spelled_cons] at hs
    obtain ⟨t, _, ht, ⟨t', ts, ⟨hm, rfl⟩, hs, rfl⟩, rfl⟩ := hs
    simp only [List.length_cons] at hlen
    have hrest := ih (h.nextName (by omega) ht hm)
      (by simp only [List.length_append, List.length_singleton]; omega) hs
    simpa using hrest

theorem names_derives {n : Nat} {g : Bool} {ms : List Mark} {ts : List Token}
    (hlen : ms.length ≤ maxArguments) (hs : Spelled (names ms) ts) :
    Derives n g .parameters ts (.names ms) := by
  cases ms with
  | nil =>
    obtain rfl := spelled_nil.mp hs
    exact .noParameters
  | cons m ms =>
    simp only [names, spelled_cons] at hs
    obtain ⟨t, ts, ⟨hm, rfl⟩, hs, rfl⟩ := hs
    simp only [List.length_cons] at hlen
    exact .parameters (moreNames_derives (.firstName hm) (by simpa [Nat.add_comm] using hlen) hs)

theorem Function.Readable.mk {body : List Stmt} (params : List Mark) (h : Stmt.AllReadable body) :
    (Function.mk params body).Readable := by
  intro n g ts hc hn hs
  simp only [Function.canonical, Bool.and_eq_true, decide_eq_true_eq] at hc
  simp only [Function.items, spelled_cons, spelled_append, spelled_nil] at hs
  obtain ⟨ts, _, hs, ⟨r, _, hr, ⟨l, _, hl, ⟨ts', _, hs', ⟨b, _, hb, rfl, rfl⟩, rfl⟩, rfl⟩, rfl⟩,
    rfl⟩ := hs
  have hbody := h hc.2 hn .noDeclarations hs'
  exact .function (names_derives hc.1 hs) hr hl (by simpa using hbody) hb

theorem Method.AllReadable.nil : Method.AllReadable [] := by
  intro n ts ts₀ ms₀ _ _ h hs
  obtain rfl := spelled_nil.mp hs
  simpa [Method.trees] using h

theorem Method.AllReadable.cons {static : Bool} {name : Mark} {fn : Function} {ms : List Method}
    (hfn : fn.Readable) (hms : Method.AllReadable ms) :
    Method.AllReadable (.mk static name fn :: ms) := by
  intro n ts ts₀ ms₀ hc hn h hs
  simp only [Method.allCanonical, Bool.and_eq_true] at hc
  simp only [Method.allNesting, Nat.max_le] at hn
  cases static with
  | false =>
    simp only [Method.allItems, spelled_cons, spelled_append] at hs
    obtain ⟨_, ts₂, ⟨m, _, ⟨hm, rfl⟩, ⟨l, ts₁, hl, hs₁, rfl⟩, rfl⟩, hs₂, rfl⟩ := hs
    have hrest := hms hc.2 hn.2 (h.method hm hl (hfn hc.1 hn.1 hs₁)) hs₂
    simpa [Method.trees] using hrest
  | true =>
    simp only [Method.allItems, spelled_cons, spelled_append] at hs
    obtain ⟨_, ts₂, ⟨t, _, ht, ⟨m, _, ⟨hm, rfl⟩, ⟨l, ts₁, hl, hs₁, rfl⟩, rfl⟩, rfl⟩, hs₂, rfl⟩ := hs
    have hrest := hms hc.2 hn.2 (h.staticMethod ht hm hl (hfn hc.1 hn.1 hs₁)) hs₂
    simpa [Method.trees] using hrest

/-! ### Statements -/

namespace Stmt

namespace Readable

variable {e c : Expr} {s y b : Stmt} {n : Nat} {ts : List Token}

/-- A statement in a place where declarations may stand. -/
theorem declaration (h : s.Readable) (hc : s.canonical = true) (hn : s.nesting ≤ n)
    (hs : Spelled s.items ts) : Derives n false .declaration ts (.stmt s.tree) := by
  have hd := h hc hn hs
  unfold symbol at hd
  split at hd
  · exact .statement hd
  · exact hd

/-- A statement in a place where no declaration may stand. -/
theorem statement (h : s.Readable) (hst : s.isStatement = true) (hc : s.canonical = true)
    (hn : s.nesting ≤ n) (hs : Spelled s.items ts) :
    Derives n false (.statement s.endsInIf) ts (.stmt s.tree) := by
  have hd := h hc hn hs
  rwa [symbol, if_pos hst] at hd

theorem expression (h : e.Readable) : (Stmt.expression e).Readable := by
  intro n ts hc hn hs
  simp only [items, spelled_cons, spelled_append, spelled_nil] at hs
  obtain ⟨ts, _, hs, ⟨t, _, ht, rfl, rfl⟩, rfl⟩ := hs
  obtain ⟨n, rfl⟩ := Nat.exists_eq_add_one.2 (Nat.zero_lt_of_lt hn)
  exact .expression (.simple (h.expression hc (Nat.le_of_succ_le_succ hn) hs) ht)

theorem print (h : e.Readable) : (Stmt.print e).Readable := by
  intro n ts hc hn hs
  simp only [items, spelled_cons, spelled_append, spelled_nil] at hs
  obtain ⟨t, _, ht, ⟨ts, _, hs, ⟨r, _, hr, rfl, rfl⟩, rfl⟩, rfl⟩ := hs
  obtain ⟨n, rfl⟩ := Nat.exists_eq_add_one.2 (Nat.zero_lt_of_lt hn)
  exact .print ht (h.expression hc (Nat.le_of_succ_le_succ hn) hs) hr

theorem unset (name : Mark) : (Stmt.varDecl name none).Readable := by
  intro n ts _ _ hs
  simp only [items, spelled_cons, spelled_nil] at hs
  obtain ⟨t, _, ht, ⟨m, _, ⟨hm, rfl⟩, ⟨r, _, hr, rfl, rfl⟩, rfl⟩, rfl⟩ := hs
  exact .varDecl ht (.unset hm hr)

theorem initialized (name : Mark) (h : e.Readable) : (Stmt.varDecl name (some e)).Readable := by
  intro n ts hc hn hs
  simp only [items, spelled_cons, spelled_append, spelled_nil] at hs
  obtain ⟨t, _, ht, ⟨m, _, ⟨hm, rfl⟩, ⟨q, _, hq, ⟨ts, _, hs, ⟨r, _, hr, rfl, rfl⟩, rfl⟩, rfl⟩, rfl⟩,
    rfl⟩ := hs
  exact .varDecl ht (.initialized hm hq (h.expression hc hn hs) hr)

theorem block {body : List Stmt} (h : AllReadable body) : (Stmt.block body).Readable := by
  intro n ts hc hn hs
  simp only [items, spelled_cons, spelled_append, spelled_nil] at hs
  obtain ⟨l, _, hl, ⟨ts, _, hs, ⟨r, _, hr, rfl, rfl⟩, rfl⟩, rfl⟩ := hs
  obtain ⟨n, rfl⟩ := Nat.exists_eq_add_one.2 (Nat.zero_lt_of_lt hn)
  have hbody := h hc (Nat.le_of_succ_le_succ hn) .noDeclarations hs
  exact .block hl (by simpa using hbody) hr

theorem ifThen (hcond : c.Readable) (hy : y.Readable) : (Stmt.branch c y none).Readable := by
  intro n ts hc hn hs
  simp only [canonical, Bool.and_eq_true] at hc
  simp only [items, spelled_cons, spelled_append] at hs
  obtain ⟨t, _, ht, ⟨l, _, hl, ⟨ts, _, hs, ⟨r, ts', hr, hs', rfl⟩, rfl⟩, rfl⟩, rfl⟩ := hs
  obtain ⟨n, rfl⟩ := Nat.exists_eq_add_one.2 (Nat.zero_lt_of_lt hn)
  simp only [nesting, Nat.add_le_add_iff_right, Nat.max_le] at hn
  obtain ⟨⟨hcc, hst⟩, hcy⟩ := hc
  exact .ifThen ht hl (hcond.expression hcc hn.1 hs) hr (hy.statement hst hcy hn.2 hs')

theorem ifElse (hcond : c.Readable) (hy : y.Readable) (hs : s.Readable) :
    (Stmt.branch c y (some s)).Readable := by
  intro n ts hc hn hw
  simp only [canonical, Bool.and_eq_true, Bool.not_eq_true'] at hc
  simp only [items, spelled_cons, spelled_append] at hw
  obtain ⟨t, _, ht, ⟨l, _, hl, ⟨ts, _, hw, ⟨r, _, hr, ⟨ts₁, _, hw₁, ⟨els, ts₂, hels, hw₂, rfl⟩,
    rfl⟩, rfl⟩, rfl⟩, rfl⟩, rfl⟩ := hw
  obtain ⟨n, rfl⟩ := Nat.exists_eq_add_one.2 (Nat.zero_lt_of_lt hn)
  simp only [nesting, Nat.add_le_add_iff_right, Nat.max_le] at hn
  obtain ⟨⟨⟨⟨⟨hcc, hsty⟩, hcy⟩, hends⟩, hsts⟩, hcs⟩ := hc
  have hyes := hy.statement hsty hcy hn.2.1 hw₁
  rw [hends] at hyes
  exact .ifElse ht hl (hcond.expression hcc hn.1 hw) hr hyes hels
    (hs.statement hsts hcs hn.2.2 hw₂)

theorem loop (hcond : c.Readable) (hb : b.Readable) : (Stmt.loop c b).Readable := by
  intro n ts hc hn hs
  simp only [canonical, Bool.and_eq_true] at hc
  simp only [items, spelled_cons, spelled_append] at hs
  obtain ⟨t, _, ht, ⟨l, _, hl, ⟨ts, _, hs, ⟨r, ts', hr, hs', rfl⟩, rfl⟩, rfl⟩, rfl⟩ := hs
  obtain ⟨n, rfl⟩ := Nat.exists_eq_add_one.2 (Nat.zero_lt_of_lt hn)
  simp only [nesting, Nat.add_le_add_iff_right, Nat.max_le] at hn
  obtain ⟨⟨hcc, hst⟩, hcb⟩ := hc
  exact .whileLoop ht hl (hcond.expression hcc hn.1 hs) hr (hb.statement hst hcb hn.2 hs')

theorem tree_forLoop (i : Option Stmt) (cond inc : Option Expr) (b : Stmt) :
    (Stmt.forLoop i cond inc b).tree =
      Grammar.forLoop (tree? i) (Expr.tree? cond) (Expr.tree? inc) b.tree := by
  cases i <;> cases inc <;> rfl

theorem forLoop {i : Option Stmt} {cond inc : Option Expr} (hi : InitialReadable i)
    (hcond : Expr.ClauseReadable cond) (hinc : Expr.ClauseReadable inc) (hb : b.Readable) :
    (Stmt.forLoop i cond inc b).Readable := by
  intro n ts hc hn hs
  simp only [canonical, Bool.and_eq_true] at hc
  simp only [items, spelled_cons, spelled_append] at hs
  obtain ⟨t, _, ht, ⟨l, _, hl, ⟨ts₁, _, hs₁, ⟨ts₂, _, hs₂, ⟨sep, _, hsep, ⟨ts₃, _, hs₃,
    ⟨r, ts₄, hr, hs₄, rfl⟩, rfl⟩, rfl⟩, rfl⟩, rfl⟩, rfl⟩, rfl⟩ := hs
  obtain ⟨n, rfl⟩ := Nat.exists_eq_add_one.2 (Nat.zero_lt_of_lt hn)
  simp only [nesting, Nat.add_le_add_iff_right, Nat.max_le] at hn
  obtain ⟨⟨⟨⟨hci, hcc⟩, hcinc⟩, hst⟩, hcb⟩ := hc
  rw [tree_forLoop]
  exact .forLoop ht hl (hi hci hn.1 hs₁) (hcond hcc hn.2.1 hs₂) hsep (hinc hcinc hn.2.2.1 hs₃) hr
    (hb.statement hst hcb hn.2.2.2 hs₄)

theorem ret {o : Option Expr} (keyword : Mark) (h : Expr.ClauseReadable o) :
    (Stmt.ret keyword o).Readable := by
  intro n ts hc hn hs
  simp only [items, spelled_cons, spelled_append, spelled_nil] at hs
  obtain ⟨t, _, ⟨ht, rfl⟩, ⟨ts, _, hs, ⟨r, _, hr, rfl, rfl⟩, rfl⟩, rfl⟩ := hs
  obtain ⟨n, rfl⟩ := Nat.exists_eq_add_one.2 (Nat.zero_lt_of_lt hn)
  exact .ret ht (h hc (Nat.le_of_succ_le_succ hn) hs) hr

theorem brk (keyword : Mark) : (Stmt.brk keyword).Readable := by
  intro n ts _ hn hs
  simp only [items, spelled_cons, spelled_nil] at hs
  obtain ⟨t, _, ⟨ht, rfl⟩, ⟨r, _, hr, rfl, rfl⟩, rfl⟩ := hs
  obtain ⟨n, rfl⟩ := Nat.exists_eq_add_one.2 (Nat.zero_lt_of_lt hn)
  exact .brk ht hr

theorem funDecl {fn : Function} (name : Mark) (h : fn.Readable) :
    (Stmt.funDecl name fn).Readable := by
  intro n ts hc hn hs
  simp only [items, spelled_cons] at hs
  obtain ⟨t, _, ht, ⟨m, _, ⟨hm, rfl⟩, ⟨l, ts, hl, hs, rfl⟩, rfl⟩, rfl⟩ := hs
  exact .funDecl ht hm hl (h hc hn hs)

theorem classDecl {ms : List Method} (name : Mark) (superclass : Option Mark)
    (h : Method.AllReadable ms) : (Stmt.classDecl name superclass ms).Readable := by
  intro n ts hc hn hs
  cases superclass with
  | none =>
    simp only [items, spelled_cons, spelled_append, spelled_nil] at hs
    obtain ⟨t, _, ht, ⟨m, _, ⟨hm, rfl⟩, ⟨l, _, hl, ⟨ts, _, hs, ⟨r, _, hr, rfl, rfl⟩, rfl⟩, rfl⟩,
      rfl⟩, rfl⟩ := hs
    have hms := h hc hn .noMethods hs
    exact .classDecl ht hm hl (by simpa using hms) hr
  | some super =>
    simp only [items, spelled_cons, spelled_append, spelled_nil] at hs
    obtain ⟨t, _, ht, ⟨m, _, ⟨hm, rfl⟩, ⟨less, _, hless, ⟨sup, _, ⟨hsup, rfl⟩, ⟨l, _, hl,
      ⟨ts, _, hs, ⟨r, _, hr, rfl, rfl⟩, rfl⟩, rfl⟩, rfl⟩, rfl⟩, rfl⟩, rfl⟩ := hs
    have hms := h hc hn .noMethods hs
    exact .subclassDecl ht hm hless hsup hl (by simpa using hms) hr

theorem importDecl (path : Token) (asName : Option Mark) :
    (Stmt.importDecl path asName).Readable := by
  intro n ts hc _ hs
  simp only [canonical, decide_eq_true_eq] at hc
  cases asName with
  | none =>
    simp only [items, spelled_cons, spelled_nil] at hs
    obtain ⟨t, _, ht, ⟨_, _, rfl, ⟨r, _, hr, rfl, rfl⟩, rfl⟩, rfl⟩ := hs
    exact .importDecl ht hc hr
  | some name =>
    simp only [items, spelled_cons, spelled_nil] at hs
    obtain ⟨t, _, ht, ⟨_, _, rfl, ⟨as, _, has, ⟨m, _, ⟨hm, rfl⟩, ⟨r, _, hr, rfl, rfl⟩, rfl⟩, rfl⟩,
      rfl⟩, rfl⟩ := hs
    exact .importAs ht hc has hm hr

end Readable

theorem InitialReadable.missing : InitialReadable none := by
  intro n ts _ _ hs
  simp only [initialItems, spelled_cons, spelled_nil] at hs
  obtain ⟨t, _, ht, rfl, rfl⟩ := hs
  exact .noInitializer ht

theorem InitialReadable.unset (name : Mark) : InitialReadable (some (.varDecl name none)) := by
  intro n ts _ _ hs
  simp only [initialItems, items, spelled_cons, spelled_nil] at hs
  obtain ⟨t, _, ht, ⟨m, _, ⟨hm, rfl⟩, ⟨r, _, hr, rfl, rfl⟩, rfl⟩, rfl⟩ := hs
  exact .varInitializer ht (.unset hm hr)

theorem InitialReadable.initialized {e : Expr} (name : Mark) (h : e.Readable) :
    InitialReadable (some (.varDecl name (some e))) := by
  intro n ts hc hn hs
  simp only [initialItems, items, spelled_cons, spelled_append, spelled_nil] at hs
  obtain ⟨t, _, ht, ⟨m, _, ⟨hm, rfl⟩, ⟨q, _, hq, ⟨ts, _, hs, ⟨r, _, hr, rfl, rfl⟩, rfl⟩, rfl⟩, rfl⟩,
    rfl⟩ := hs
  exact .varInitializer ht (.initialized hm hq (h.expression hc hn hs) hr)

theorem InitialReadable.expression {e : Expr} (h : e.Readable) :
    InitialReadable (some (.expression e)) := by
  intro n ts hc hn hs
  simp only [initialItems, items, spelled_cons, spelled_append, spelled_nil] at hs
  obtain ⟨ts, _, hs, ⟨t, _, ht, rfl, rfl⟩, rfl⟩ := hs
  exact .initializer (.simple (h.expression hc hn hs) ht)

/-- Nothing else may stand first in the parentheses of a `for` statement. -/
theorem InitialReadable.other {s : Stmt} (h : s.isInitial = false) : InitialReadable (some s) := by
  intro n ts hc
  simp [h] at hc

theorem AllReadable.nil : AllReadable [] := by
  intro n ts ts₀ ss₀ _ _ h hs
  obtain rfl := spelled_nil.mp hs
  simpa [trees] using h

theorem AllReadable.cons {s : Stmt} {ss : List Stmt} (hst : s.Readable) (hss : AllReadable ss) :
    AllReadable (s :: ss) := by
  intro n ts ts₀ ss₀ hc hn h hs
  simp only [allCanonical, Bool.and_eq_true] at hc
  simp only [allNesting, Nat.max_le] at hn
  obtain ⟨ts₁, ts₂, hs₁, hs₂, rfl⟩ := spelled_append.mp hs
  have hrest := hss hc.2 hn.2 (h.declaration (hst.declaration hc.1 hn.1 hs₁)) hs₂
  simpa [trees] using hrest

end Stmt

/-! ### All trees -/

mutual

theorem Expr.readable : (e : Expr) → e.Readable
  | .literal value => .literal value
  | .name mark => .name mark
  | .receiver keyword => .receiver keyword
  | .inherited keyword method => .inherited keyword method
  | .group inner => .group inner.readable
  | .function keyword fn => .function keyword fn.readable
  | .call callee paren [] => .call paren callee.readable nofun
  | .call callee paren (e :: es) =>
    .call paren callee.readable fun _ _ h => by
      cases h
      exact ⟨e.readable, Expr.moreReadable es⟩
  | .get object property => .get property object.readable
  | .unary op mark operand => .unary op mark operand.readable
  | .binary op mark left right => .binary op mark left.readable right.readable
  | .logical op mark left right => .logical op mark left.readable right.readable
  | .conditional condition yes no => .conditional condition.readable yes.readable no.readable
  | .assign mark value => .assign mark value.readable
  | .set object property value => .set property object.readable value.readable

theorem Expr.moreReadable : (es : List Expr) → Expr.MoreReadable es
  | [] => .nil
  | e :: es => .cons e.readable (Expr.moreReadable es)

theorem Expr.clauseReadable : (o : Option Expr) → Expr.ClauseReadable o
  | none => .missing
  | some e => .present e.readable

theorem Function.readable : (fn : Function) → fn.Readable
  | .mk params body => .mk params (Stmt.allReadable body)

theorem Method.allReadable : (ms : List Method) → Method.AllReadable ms
  | [] => .nil
  | .mk _ _ fn :: ms => .cons fn.readable (Method.allReadable ms)

theorem Stmt.readable : (s : Stmt) → s.Readable
  | .expression e => .expression e.readable
  | .print e => .print e.readable
  | .varDecl name none => .unset name
  | .varDecl name (some e) => .initialized name e.readable
  | .block body => .block (Stmt.allReadable body)
  | .branch condition yes none => .ifThen condition.readable yes.readable
  | .branch condition yes (some no) => .ifElse condition.readable yes.readable no.readable
  | .loop condition body => .loop condition.readable body.readable
  | .forLoop initial condition increment body =>
    .forLoop (Stmt.initialReadable initial) (Expr.clauseReadable condition)
      (Expr.clauseReadable increment) body.readable
  | .ret keyword value => .ret keyword (Expr.clauseReadable value)
  | .brk keyword => .brk keyword
  | .funDecl name fn => .funDecl name fn.readable
  | .classDecl name superclass methods => .classDecl name superclass (Method.allReadable methods)
  | .importDecl path asName => .importDecl path asName

theorem Stmt.initialReadable : (o : Option Stmt) → Stmt.InitialReadable o
  | none => .missing
  | some (.varDecl name none) => .unset name
  | some (.varDecl name (some e)) => .initialized name e.readable
  | some (.expression e) => .expression e.readable
  | some (.print _) | some (.block _) | some (.branch _ _ _) | some (.loop _ _)
  | some (.forLoop _ _ _ _) | some (.ret _ _) | some (.brk _) | some (.funDecl _ _)
  | some (.classDecl _ _ _) | some (.importDecl _ _) => .other rfl

theorem Stmt.allReadable : (ss : List Stmt) → Stmt.AllReadable ss
  | [] => .nil
  | s :: ss => .cons s.readable (Stmt.allReadable ss)

end

/-- The parser returns the trees that were written, whatever else there is to their tokens. -/
theorem ofTokens_of_spelled (program : List Stmt) (hc : Stmt.allCanonical program = true)
    (hn : Stmt.allNesting program ≤ maxNesting) {ts : List Token} {stop : Token}
    (hs : Spelled (Stmt.allItems program) ts) (hstop : stop.kind = .eof) :
    Parsed.ofTokens (ts ++ [stop]) = ⟨Stmt.trees program, []⟩ := by
  have h := Stmt.allReadable program hc hn .noDeclarations hs
  exact Parsed.ofTokens_of_derives (by simpa using h) hstop

/-- A loop with an initializer and an increment, around a choice between two sequences. -/
theorem ofTokens_of_spelled_loop :
    let mark : Mark := ⟨[], 1⟩
    let i : Expr := .name mark
    let increment : Expr := .assign mark (.binary .plus mark i (.unary .negate mark (.group i)))
    let choice : Expr := .conditional i (.binary .sequence mark i increment) (.call i mark [i, i])
    let program : List Stmt :=
      [.forLoop (some (.varDecl mark (some i))) none (some increment)
        (.branch i (.branch i (.print choice) (some (.brk mark))) none)]
    let tokens := (Stmt.allItems program).map Item.token
    Stmt.allCanonical program = true ∧ Stmt.allNesting program ≤ maxNesting ∧
      Parsed.ofTokens (tokens ++ [⟨.eof, [], .nil, 2⟩]) = ⟨Stmt.trees program, []⟩ :=
  ⟨by decide, by decide, ofTokens_of_spelled _ (by decide) (by decide) (spelled_token _) rfl⟩

end Surface

end Lox
