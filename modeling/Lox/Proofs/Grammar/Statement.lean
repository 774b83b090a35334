import Lox.Proofs.Grammar.Expression

/-!
# What the statement rules read

Each rule for statements and declarations, given that the rules it refers to read what the grammar
derives, reads what the grammar derives.
-/

namespace Lox.Grammar

open Parse (Agree)

variable {R R' : Rules} {n : Nat} {c : Cursor}

/-! ### Parts of longer rules -/

/-- What stands in the braces of a class, with the braces. -/
def classBody (rules : Rules) (name : Mark) (superclass : Option (Mark × Unit)) :
    Parse (Stmt Unit) := do
  let _ ← Parse.consume .leftBrace .classOpen
  let methods ← Parse.many (fun methods => do
    if (← Parse.atEnd) || (← Parse.check .rightBrace) then pure none
    else
      let m ← method rules
      pure (some (m :: methods))) []
  let _ ← Parse.consume .rightBrace .classClose
  pure (.classDecl name superclass methods.reverse)

theorem classDeclaration_eq (rules : Rules) : classDeclaration rules = (do
    let name ← Parse.consume .identifier .className
    match ← Parse.accept .less with
    | none => classBody rules name.mark none
    | some _ =>
      let super ← Parse.consume .identifier .superclassName
      classBody rules name.mark (some (super.mark, ()))) := rfl

/-- The first part of a `for` statement. -/
def forInitial (rules : Rules) : Parse (Option (Stmt Unit)) := do
  match (← Parse.peek).kind with
  | .semicolon => Parse.advance; pure none
  | .varKw => Parse.advance; some <$> varDeclaration rules
  | _ => some <$> expressionStatement rules

/-- An expression, unless the token that ends it comes at once. -/
def clauseBefore (kind : TokenKind) (rules : Rules) : Parse (Option (Expr Unit)) := do
  if ← Parse.check kind then pure none else some <$> rules.expression

theorem forInitial_bind {β : Type} (rules : Rules) (k : Option (Stmt Unit) → Parse β) :
    forInitial rules >>= k = (do
      match (← Parse.peek).kind with
      | .semicolon => Parse.advance; k none
      | .varKw => Parse.advance; (some <$> varDeclaration rules) >>= k
      | _ => (some <$> expressionStatement rules) >>= k) := by
  unfold forInitial
  rw [bind_assoc]
  congr 1
  funext t
  split <;> rfl

theorem clauseBefore_bind {β : Type} (kind : TokenKind) (rules : Rules)
    (k : Option (Expr Unit) → Parse β) :
    clauseBefore kind rules >>= k = (do
      if ← Parse.check kind then k none else (some <$> rules.expression) >>= k) := by
  unfold clauseBefore
  rw [bind_assoc]
  congr 1
  funext b
  cases b <;> rfl

theorem forStatement_eq (rules : Rules) : forStatement rules = (do
    let _ ← Parse.consume .leftParen .forOpen
    let initial ← forInitial rules
    let condition ← clauseBefore .semicolon rules
    let _ ← Parse.consume .semicolon .forConditionEnd
    let increment ← clauseBefore .rightParen rules
    let _ ← Parse.consume .rightParen .forClose
    let body ← rules.statement
    pure (forLoop initial condition increment body)) := by
  simp only [forInitial_bind, clauseBefore_bind]
  rfl

theorem returnStatement_eq (rules : Rules) (keyword : Mark) : returnStatement rules keyword = (do
    let value ← clauseBefore .semicolon rules
    let _ ← Parse.consume .semicolon .returnEnd
    pure (.ret keyword value)) := by
  rw [clauseBefore_bind]
  rfl

/-! ### Declarations -/

/-- What is assumed of expressions at the input of a statement. -/
abbrev ExpressionAgrees (n : Nat) (R R' : Rules) : Prop :=
  ∀ {c : Cursor}, c.Closed → c.rest.length ≤ n →
    Agree c R.expression R'.expression (ReadsExpression c)

theorem functionDeclaration_agree (kind : FunctionKind) (hR : ∀ m < n, Rules.Agree m R R')
    (hc : c.Closed) (hn : c.rest.length ≤ n) :
    Agree c (functionDeclaration R kind) (functionDeclaration R' kind) fun ts _ fs x =>
      ts ≠ [] ∧ (fs = [] → ∃ m l ts', ts = m :: l :: ts' ∧ m.kind = .identifier ∧
        l.kind = .leftParen ∧ x.1 = m.mark ∧
          Derives c.room c.grouped .function ts' (.fn x.2)) := by
  unfold functionDeclaration
  refine .consume fun m k₁ hr₁ hm => .consume fun l k₂ hr₂ hl => ?_
  have hlen : k₂.length ≤ n := 
    Nat.le_of_lt (Token.length_lt_of_cons hr₂ (Nat.le_of_lt (Token.length_lt_of_cons hr₁ hn)))
  refine .bind (functionRest_agree kind hR hc hlen) fun ts k fs fn _ hfn => .pure ?_
  exact ⟨by simp, fun hfs => ⟨m, l, ts, by simp, hm, hl, rfl, hfn (by simpa using hfs)⟩⟩

theorem method_agree (hR : ∀ m < n, Rules.Agree m R R') (hc : c.Closed)
    (hn : c.rest.length ≤ n) : Agree c (method R) (method R') fun ts _ fs m =>
      ts ≠ [] ∧ (fs = [] → ∀ ts₀ ms, Derives c.room c.grouped .methods ts₀ (.methods ms) →
        Derives c.room c.grouped .methods (ts₀ ++ ts) (.methods (ms ++ [m]))) := by
  unfold method
  refine .accept (fun t k hr ht => ?_) fun _ => ?_
  · have hlen : k.length ≤ n := Nat.le_of_lt (Token.length_lt_of_cons hr hn)
    refine .bind (functionDeclaration_agree _ hR hc hlen) ?_
    rintro ts k₁ fs ⟨name, fn⟩ - ⟨-, h⟩
    refine .pure ⟨by simp, fun hfs ts₀ ms hms => ?_⟩
    obtain ⟨m, l, ts', rfl, hm, hl, rfl, hfn⟩ := h (by simpa using hfs)
    simpa using hms.staticMethod ht hm hl hfn
  · refine .bind (functionDeclaration_agree _ hR hc hn) ?_
    rintro ts k₁ fs ⟨name, fn⟩ - ⟨hne, h⟩
    refine .pure ⟨by simpa using hne, fun hfs ts₀ ms hms => ?_⟩
    obtain ⟨m, l, ts', rfl, hm, hl, rfl, hfn⟩ := h (by simpa using hfs)
    simpa using hms.method hm hl hfn

theorem classBody_agree (name : Mark) (superclass : Option (Mark × Unit))
    (hR : ∀ m < n, Rules.Agree m R R') (hc : c.Closed) (hn : c.rest.length ≤ n) :
    Agree c (classBody R name superclass) (classBody R' name superclass) fun ts _ fs s =>
      ts ≠ [] ∧ (fs = [] → ∃ l ts' r ms, ts = l :: (ts' ++ [r]) ∧ l.kind = .leftBrace ∧
        r.kind = .rightBrace ∧ s = .classDecl name superclass ms ∧
          Derives c.room c.grouped .methods ts' (.methods ms)) := by
  unfold classBody
  refine .consume fun l k hr hl => .bind (S := fun ts _ fs ms => fs = [] →
    Derives c.room c.grouped .methods ts (.methods ms.reverse)) ?_ ?_
  · refine .many (fun ts _ fs ms => fs = [] →
      Derives c.room c.grouped .methods ts (.methods ms.reverse)) (fun _ => .noMethods) ?_
    intro ts k₁ fs ms hr₁ hI
    have hr₁ : k = ts ++ k₁ := hr₁
    refine .atEnd (.check (fun _ => ?_) fun _ => ?_)
    · simp only [Bool.or_true, if_true]
      refine .pure ?_
      simpa using hI
    · cases k₁ with
      | nil =>
        refine .pure ?_
        simpa using hI
      | cons t k₁ =>
        have hlen : (t :: k₁).length ≤ n := 
          Token.length_le_of_append hr₁ (Nat.le_of_lt (Token.length_lt_of_cons hr hn))
        refine .bind (method_agree hR hc hlen) fun ts' k' fs' m _ hm => .pure ?_
        refine ⟨by simpa using hm.1, fun hfs => ?_⟩
        simp only [List.nil_append, List.append_eq_nil_iff] at hfs
        simpa using hm.2 hfs.1 ts ms.reverse (hI hfs.2)
  · intro ts k₁ fs ms _ hI
    refine .consume fun r k₂ _ hr => .pure ⟨by simp, fun hfs => ?_⟩
    exact ⟨l, ts, r, ms.reverse, rfl, hl, hr, rfl, hI (by simpa using hfs)⟩

theorem classDeclaration_agree {t : Token} (ht : t.kind = .classKw)
    (hR : ∀ m < n, Rules.Agree m R R') (hc : c.Closed) (hn : c.rest.length ≤ n) :
    Agree c (classDeclaration R) (classDeclaration R') fun ts _ fs s =>
      fs = [] → Derives c.room c.grouped .declaration (t :: ts) (.stmt s) := by
  rw [classDeclaration_eq, classDeclaration_eq]
  refine .consume fun m k₁ hr₁ hm => .accept (fun less k₂ hr₂ hless => ?_) fun _ => ?_
  · refine .consume fun sup k₃ hr₃ hsup => ?_
    have hlen₁ := Token.length_lt_of_cons hr₁ hn
    have hlen₂ := Token.length_lt_of_cons hr₂ (Nat.le_of_lt hlen₁)
    have hlen := Nat.le_of_lt (Token.length_lt_of_cons hr₃ (Nat.le_of_lt hlen₂))
    refine (classBody_agree (c := { c with rest := k₃ }) m.mark _ hR hc hlen).mono
      fun ts k fs s _ hs hfs => ?_
    obtain ⟨l, ts', r, ms, rfl, hl, hr, rfl, hms⟩ := hs.2 hfs
    exact .subclassDecl ht hm hless hsup hl hms hr
  · have hlen : k₁.length ≤ n := Nat.le_of_lt (Token.length_lt_of_cons hr₁ hn)
    refine (classBody_agree (c := { c with rest := k₁ }) m.mark _ hR hc hlen).mono
      fun ts k fs s _ hs hfs => ?_
    obtain ⟨l, ts', r, ms, rfl, hl, hr, rfl, hms⟩ := hs.2 hfs
    exact .classDecl ht hm hl hms hr

theorem varDeclaration_agree (hR : ∀ m < n, Rules.Agree m R R') (hc : c.Closed)
    (hn : c.rest.length ≤ n) : Agree c (varDeclaration R) (varDeclaration R') fun ts _ fs s =>
      ts ≠ [] ∧ (fs = [] → Derives c.room c.grouped .variable ts (.stmt s)) := by
  unfold varDeclaration
  refine .consume fun m k₁ hr₁ hm => .accept (fun q k₂ hr₂ hq => ?_) fun _ => ?_
  · have hr₂ : k₁ = q :: k₂ := hr₂
    have hlen : k₂.length < n :=
      Token.length_lt_of_cons hr₂ (Nat.le_of_lt (Token.length_lt_of_cons hr₁ hn))
    refine .bind (S := fun ts _ fs o => fs = [] → ∃ e, o = some e ∧
      Derives c.room c.grouped .expression ts (.expr e)) (.map ?_) ?_
    · refine ((hR _ hlen).expression (c := { c with rest := k₂ }) hc (Nat.le_refl _)).mono ?_
      exact fun ts k fs e _ he hfs => ⟨e, rfl, (he.2 hfs).1⟩
    · intro ts k fs o _ ho
      refine .consume fun t k₃ _ ht => .pure ⟨by simp, fun hfs => ?_⟩
      obtain ⟨e, rfl, he⟩ := ho (by simpa using hfs)
      exact .initialized hm hq he ht
  · exact .consume fun t k₂ _ ht => .pure ⟨by simp, fun _ => .unset hm ht⟩

theorem importDeclaration_agree {t : Token} (ht : t.kind = .importKw) :
    Agree c importDeclaration importDeclaration fun ts _ fs s =>
      fs = [] → Derives c.room c.grouped .declaration (t :: ts) (.stmt s) := by
  unfold importDeclaration
  refine .consume fun path k₁ hr₁ hpath => .accept (fun as k₂ hr₂ has => ?_) fun _ => ?_
  · refine .consume fun m k₃ _ hm => .consume fun r k₄ _ hr => .pure fun _ => ?_
    exact .importAs ht hpath has hm hr
  · exact .consume fun r k₂ _ hr => .pure fun _ => .importDecl ht hpath hr

/-! ### Statements -/

theorem expressionStatement_agree (he : ExpressionAgrees n R R') (hc : c.Closed)
    (hn : c.rest.length ≤ n) :
    Agree c (expressionStatement R) (expressionStatement R') fun ts _ fs s =>
      ts ≠ [] ∧ (fs = [] → Derives c.room c.grouped .simple ts (.stmt s)) := by
  unfold expressionStatement
  refine .bind (he hc hn) fun ts k fs e _ he => .consume fun t k₁ _ ht => .pure ?_
  exact ⟨by simp, fun hfs => .simple (he.2 (by simpa using hfs)).1 ht⟩

theorem clauseBefore_agree (kind : TokenKind) (he : ExpressionAgrees n R R') (hc : c.Closed)
    (hn : c.rest.length ≤ n) :
    Agree c (clauseBefore kind R) (clauseBefore kind R') fun ts _ fs o =>
      fs = [] → Derives c.room c.grouped .clause ts (.clause o) := by
  unfold clauseBefore
  refine .check (fun _ => .pure fun _ => .noClause) fun _ => .map ((he hc hn).mono ?_)
  exact fun ts k fs e _ he hfs => .clause (he.2 hfs).1

theorem forInitial_agree (hR : ∀ m < n, Rules.Agree m R R') (he : ExpressionAgrees n R R')
    (hc : c.Closed) (hn : c.rest.length ≤ n) :
    Agree c (forInitial R) (forInitial R') fun ts _ fs o =>
      ts ≠ [] ∧ (fs = [] → Derives c.room c.grouped .initializer ts (.initial o)) := by
  unfold forInitial
  have plain : Agree c (some <$> expressionStatement R) (some <$> expressionStatement R')
      fun ts _ fs o => ts ≠ [] ∧
        (fs = [] → Derives c.room c.grouped .initializer ts (.initial o)) := by
    refine .map ((expressionStatement_agree he hc hn).mono ?_)
    exact fun ts k fs s _ hs => ⟨hs.1, fun hfs => .initializer (hs.2 hfs)⟩
  refine .peek ?_
  cases hr : c.rest with
  | nil =>
    have hk : c.peek.kind = .eof := (Cursor.peek_nil hr).symm ▸ hc
    simp only [hk]
    exact plain
  | cons t k =>
    rw [Cursor.peek_cons hr]
    split
    · next hk => exact .advance hr (.pure ⟨by simp, fun _ => .noInitializer hk⟩)
    · next hk =>
      have hlen : k.length ≤ n := Nat.le_of_lt (Token.length_lt_of_cons hr hn)
      refine .advance hr (.map ?_)
      refine (varDeclaration_agree (c := { c with rest := k }) hR hc hlen).mono ?_
      exact fun ts k fs s _ hs => ⟨by simp, fun hfs => .varInitializer hk (hs.2 hfs)⟩
    · exact plain

/-- What a rule reads after the keyword `t` of a statement. -/
def ReadsAfter (c : Cursor) (t : Token) : Statement (Stmt Unit) := fun ts k fs s =>
  fs = [] → ∃ o, Derives (c.room + 1) c.grouped (.statement o) (t :: ts) (.stmt s) ∧
    (o = true → ¬ Token.Heads .elseKw k)

variable {t : Token}

theorem printStatement_agree (ht : t.kind = .printKw) (he : ExpressionAgrees n R R')
    (hc : c.Closed) (hn : c.rest.length ≤ n) :
    Agree c (printStatement R) (printStatement R') (ReadsAfter c t) := by
  unfold printStatement
  refine .bind (he hc hn) fun ts k fs e _ he => .consume fun r k₁ _ hr => .pure fun hfs => ?_
  exact ⟨false, .print ht (he.2 (by simpa using hfs)).1 hr, nofun⟩

theorem ifStatement_agree (ht : t.kind = .ifKw) (hR : ∀ m < n, Rules.Agree m R R') (hc : c.Closed)
    (hg : c.grouped = false) (hn : c.rest.length ≤ n) :
    Agree c (ifStatement R) (ifStatement R') (ReadsAfter c t) := by
  unfold ifStatement
  refine .consume fun l k₁ hr₁ hl => ?_
  have hlen₁ : k₁.length < n := Token.length_lt_of_cons hr₁ hn
  refine .bind ((hR _ hlen₁).expression hc (Nat.le_refl _)) fun ts₂ k₂ fs₂ e hr₂ he => ?_
  refine .consume fun r k₃ hr₃ hr => ?_
  have hlen₃ : k₃.length < n := Token.length_lt_of_append_cons hr₂ hr₃ (Nat.le_of_lt hlen₁)
  refine .bind ((hR _ hlen₃).statement hc hg (Nat.le_refl _)) fun ts₄ k₄ fs₄ y hr₄ hy => ?_
  refine .accept (fun els k₅ hr₅ hels => ?_) fun hno => .pure fun hfs => ?_
  · have hlen₅ : k₅.length < n := Token.length_lt_of_append_cons hr₄ hr₅ (Nat.le_of_lt hlen₃)
    refine .bind ((hR _ hlen₅).statement hc hg (Nat.le_refl _))
      fun ts₆ k₆ fs₆ s _ hs => .pure fun hfs => ?_
    simp only [List.nil_append, List.append_assoc, List.append_eq_nil_iff] at hfs
    obtain ⟨o, hs, hlast⟩ := hs.2 (by simp [hfs])
    obtain ⟨o', hy, hopen⟩ := hy.2 (by simp [hfs])
    have hclosed : o' = false := by
      cases o' with
      | false => rfl
      | true => exact absurd ⟨els, k₅, hr₅, hels⟩ (hopen rfl)
    subst hclosed
    have h := Derives.ifElse ht hl (he.2 (by simp [hfs])).1 hr hy hels hs
    exact ⟨o, by simpa using h, hlast⟩
  · simp only [List.nil_append, List.append_eq_nil_iff] at hfs
    obtain ⟨o, hy, -⟩ := hy.2 (by simp [hfs])
    have h := Derives.ifThen ht hl (he.2 (by simp [hfs])).1 hr hy
    exact ⟨true, by simpa using h, fun _ => hno⟩

theorem whileStatement_agree (ht : t.kind = .whileKw) (hR : ∀ m < n, Rules.Agree m R R')
    (hc : c.Closed) (hg : c.grouped = false) (hn : c.rest.length ≤ n) :
    Agree c (whileStatement R) (whileStatement R') (ReadsAfter c t) := by
  unfold whileStatement
  refine .consume fun l k₁ hr₁ hl => ?_
  have hlen₁ : k₁.length < n := Token.length_lt_of_cons hr₁ hn
  refine .bind ((hR _ hlen₁).expression hc (Nat.le_refl _)) fun ts₂ k₂ fs₂ e hr₂ he => ?_
  refine .consume fun r k₃ hr₃ hr => ?_
  have hlen₃ : k₃.length < n := Token.length_lt_of_append_cons hr₂ hr₃ (Nat.le_of_lt hlen₁)
  refine .bind ((hR _ hlen₃).statement hc hg (Nat.le_refl _))
    fun ts₄ k₄ fs₄ b _ hb => .pure fun hfs => ?_
  simp only [List.nil_append, List.append_eq_nil_iff] at hfs
  obtain ⟨o, hb, hlast⟩ := hb.2 (by simp [hfs])
  have h := Derives.whileLoop ht hl (he.2 (by simp [hfs])).1 hr hb
  exact ⟨o, by simpa using h, hlast⟩

theorem forStatement_agree (ht : t.kind = .forKw) (hR : ∀ m < n, Rules.Agree m R R')
    (hc : c.Closed) (hg : c.grouped = false) (hn : c.rest.length ≤ n) :
    Agree c (forStatement R) (forStatement R') (ReadsAfter c t) := by
  rw [forStatement_eq, forStatement_eq]
  refine .consume fun l k₁ hr₁ hl => ?_
  have hlen₁ : k₁.length < n := Token.length_lt_of_cons hr₁ hn
  have shorter : ∀ m < n, ExpressionAgrees m R R' := fun m hm => (hR m hm).expression
  refine .bind (forInitial_agree (fun m hm => hR m (Nat.lt_trans hm hlen₁)) (shorter _ hlen₁) hc
    (Nat.le_refl _)) fun ts₂ k₂ fs₂ i hr₂ hi => ?_
  have hlen₂ : k₂.length < n :=
    Nat.lt_of_le_of_lt (Token.length_le_of_append hr₂ (Nat.le_refl _)) hlen₁
  refine .bind (clauseBefore_agree _ (shorter _ hlen₂) hc (Nat.le_refl _))
    fun ts₃ k₃ fs₃ e hr₃ he => .consume fun sep k₄ hr₄ hsep => ?_
  have hlen₄ : k₄.length < n := Token.length_lt_of_append_cons hr₃ hr₄ (Nat.le_of_lt hlen₂)
  refine .bind (clauseBefore_agree _ (shorter _ hlen₄) hc (Nat.le_refl _))
    fun ts₅ k₅ fs₅ inc hr₅ hinc => .consume fun r k₆ hr₆ hr => ?_
  have hlen₆ : k₆.length < n := Token.length_lt_of_append_cons hr₅ hr₆ (Nat.le_of_lt hlen₄)
  refine .bind ((hR _ hlen₆).statement hc hg (Nat.le_refl _))
    fun ts₇ k₇ fs₇ b _ hb => .pure fun hfs => ?_
  simp only [List.nil_append, List.append_assoc, List.append_eq_nil_iff] at hfs
  obtain ⟨o, hb, hlast⟩ := hb.2 (by simp [hfs])
  have h := Derives.forLoop ht hl (hi.2 (by simp [hfs])) (he (by simp [hfs])) hsep
    (hinc (by simp [hfs])) hr hb
  exact ⟨o, by simpa using h, hlast⟩

theorem returnStatement_agree (ht : t.kind = .returnKw) (he : ExpressionAgrees n R R')
    (hc : c.Closed) (hn : c.rest.length ≤ n) :
    Agree c (returnStatement R t.mark) (returnStatement R' t.mark) (ReadsAfter c t) := by
  rw [returnStatement_eq, returnStatement_eq]
  refine .bind (clauseBefore_agree _ he hc hn)
    fun ts k fs o _ ho => .consume fun r k₁ _ hr => .pure fun hfs => ?_
  exact ⟨false, .ret ht (ho (by simpa using hfs)) hr, nofun⟩

theorem breakStatement_agree (ht : t.kind = .breakKw) :
    Agree c (breakStatement t.mark) (breakStatement t.mark) (ReadsAfter c t) := by
  unfold breakStatement
  exact .consume fun r k _ hr => .pure fun _ => ⟨false, .brk ht hr, nofun⟩

theorem statement_agree (hR : ∀ m < n, Rules.Agree m R R') (he : ExpressionAgrees n R R')
    (hc : c.Closed) (hg : c.grouped = false) (hn : c.rest.length ≤ n) :
    Agree c (statement R) (statement R') (ReadsStatement c) := by
  unfold statement
  refine (Agree.nested (S := fun ts k fs s => ts ≠ [] ∧ (fs = [] → ∃ o,
    Derives (Cursor.room { c with depth := c.depth + 1 } + 1) c.grouped (.statement o) ts
      (.stmt s) ∧ (o = true → ¬ Token.Heads .elseKw k))) fun _ => .peek ?_).mono ?_
  -- what may follow an open statement is no `else`, or the parser would have taken it
  · have plain : Agree { c with depth := c.depth + 1 } (expressionStatement R)
        (expressionStatement R') fun ts k fs s => ts ≠ [] ∧ (fs = [] → ∃ o,
          Derives (Cursor.room { c with depth := c.depth + 1 } + 1) c.grouped (.statement o) ts
            (.stmt s) ∧ (o = true → ¬ Token.Heads .elseKw k)) := by
      refine (expressionStatement_agree (c := { c with depth := c.depth + 1 }) he hc hn).mono ?_
      exact fun ts k fs s _ hs => ⟨hs.1, fun hfs => ⟨false, .expression (hs.2 hfs), nofun⟩⟩
    cases hr : c.rest with
    | nil =>
      have hk : c.stop.kind = .eof := hc
      simp only [Cursor.peek, List.headD_nil, hk]
      simpa only [hr] using plain
    | cons t k =>
      have hlen : k.length < n := Token.length_lt_of_cons hr hn
      have hshort : ∀ m < k.length, Rules.Agree m R R' := fun m hm => hR m (Nat.lt_trans hm hlen)
      have hexpr : ExpressionAgrees k.length R R' := (hR _ hlen).expression
      simp only [Cursor.peek, List.headD_cons]
      have after : ∀ {p p' : Parse (Stmt Unit)},
          Agree { c with rest := k, depth := c.depth + 1 } p p'
            (ReadsAfter { c with rest := k, depth := c.depth + 1 } t) →
          Agree { c with rest := t :: k, depth := c.depth + 1 } (do Parse.advance; p)
            (do Parse.advance; p') fun ts k fs s => ts ≠ [] ∧ (fs = [] → ∃ o,
              Derives (Cursor.room { c with depth := c.depth + 1 } + 1) c.grouped (.statement o) ts
                (.stmt s) ∧ (o = true → ¬ Token.Heads .elseKw k)) := by
        intro p p' h
        exact .advance rfl (h.mono fun ts k fs s _ hs => ⟨by simp, hs⟩)
      split
      · next hk => exact after (printStatement_agree hk hexpr hc (Nat.le_refl _))
      · next hk =>
        refine after (.bind (block_agree hR hc hg hlen) fun ts k₁ fs ss _ hss =>
          .pure fun hfs => ?_)
        obtain ⟨ts', r, rfl, hr, hss⟩ := hss (by simpa using hfs)
        exact ⟨false, by simpa using Derives.block hk hss hr, by simp⟩
      · next hk => exact after (ifStatement_agree hk hshort hc hg (Nat.le_refl _))
      · next hk => exact after (whileStatement_agree hk hshort hc hg (Nat.le_refl _))
      · next hk => exact after (forStatement_agree hk hshort hc hg (Nat.le_refl _))
      · next hk => exact after (returnStatement_agree hk hexpr hc (Nat.le_refl _))
      · next hk => exact after (breakStatement_agree hk)
      · simpa only [hr] using plain
  · rintro ts k fs e - ⟨hd, hne, he⟩
    rw [ReadsStatement, Cursor.room_eq_succ hd]
    exact ⟨hne, he⟩

theorem declaration_agree (hR : ∀ m < n, Rules.Agree m R R')
    (hs : ∀ {c : Cursor}, c.Closed → c.grouped = false → c.rest.length ≤ n →
      Agree c R.statement R'.statement (ReadsStatement c))
    (hc : c.Closed) (hg : c.grouped = false) (hn : c.rest.length ≤ n) :
    Agree c (declaration R) (declaration R') (ReadsDeclaration c) := by
  unfold declaration
  refine (Agree.recovering (S := fun ts _ fs s => ts ≠ [] ∧
    (fs = [] → Derives c.room c.grouped .declaration ts (.stmt s))) hg (.peek ?_)).mono ?_
  · -- a declaration that starts with none of the keywords is a statement
    have plain : Agree c R.statement R'.statement fun ts _ fs s => ts ≠ [] ∧
        (fs = [] → Derives c.room c.grouped .declaration ts (.stmt s)) := by
      refine (hs hc hg hn).mono fun ts k fs s _ hs => ⟨hs.1, fun hfs => ?_⟩
      obtain ⟨o, h, -⟩ := hs.2 hfs
      exact h.statement
    cases hr : c.rest with
    | nil =>
      have hk : c.peek.kind = .eof := (Cursor.peek_nil hr).symm ▸ hc
      simp only [hk]
      exact plain
    | cons t k =>
      have hlen : k.length ≤ n := Nat.le_of_lt (Token.length_lt_of_cons hr hn)
      rw [Cursor.peek_cons hr]
      split
      · next hk =>
        refine .advance hr
          ((classDeclaration_agree (c := { c with rest := k }) hk hR hc hlen).mono ?_)
        exact fun ts k fs s _ hs => ⟨by simp, hs⟩
      · next hk =>
        refine .advance hr ((varDeclaration_agree (c := { c with rest := k }) hR hc hlen).mono ?_)
        exact fun ts k fs s _ hs => ⟨by simp, fun hfs => .varDecl hk (hs.2 hfs)⟩
      · next hk =>
        refine .advance hr ((importDeclaration_agree (c := { c with rest := k }) hk).mono ?_)
        exact fun ts k fs s _ hs => ⟨by simp, hs⟩
      · next hk =>
        refine .checkSecond (fun _ => ?_) fun _ => plain
        refine .advance hr (.bind (functionDeclaration_agree _ hR hc hlen) ?_)
        rintro ts k₁ fs ⟨name, fn⟩ - ⟨-, h⟩
        refine .pure ⟨by simp, fun hfs => ?_⟩
        obtain ⟨m, l, ts', rfl, hm, hl, rfl, hfn⟩ := h (by simpa using hfs)
        simpa using Derives.funDecl hk hm hl hfn
      · exact plain
  · intro ts k fs o _ ho
    cases o with
    | none => exact ⟨ho.2, fun hfs => absurd hfs ho.1⟩
    | some s => exact ⟨fun _ => ho.1, fun hfs => ⟨s, rfl, ho.2 hfs⟩⟩

end Lox.Grammar
