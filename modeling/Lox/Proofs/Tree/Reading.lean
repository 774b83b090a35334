import Lox.Proofs.Grammar.References
import Lox.Proofs.Number.Printed
import Lox.Proofs.Tree.Lines
import Lox.Proofs.Tree.Printed

/-!
# What a printed tree says

Printing leaves out the lines of a tree, the keywords of functions, returns and breaks, and the
parentheses of calls. Of a tree that has been read from a source nothing else is lost: a form can be
read back, and what is found is the tree with all its marks on one line. The marks that are not
printed are found as well, because each of them has only one spelling.
-/

namespace Lox

open Text (byte)

/-! ### Reading forms -/

/-- All lines as one. -/
def forgetLine : Int → Int := fun _ => 0

/-- A mark on the one line. -/
def Mark.ofText (w : Text) : Mark := ⟨w, 0⟩

@[simp] theorem Mark.mapLine_forgetLine (m : Mark) : m.mapLine forgetLine = .ofText m.lexeme := rfl

/-- The mark of an operator or a keyword. -/
def TokenKind.mark (kind : TokenKind) : Mark := .ofText kind.text

/-- A string on the one line, by its spelling. -/
def Token.ofPath (path : Text) : Token := ⟨.string, path, .string path.tail.dropLast, 0⟩

namespace HeadWord

/-- All of them. -/
def all : List HeadWord :=
  [group, choice, assign, get, call, function, inherited, expression, print, varDecl, block, branch,
    loop, ret, brk, classDecl, static, method]

/-- The head word that a word is, if any. -/
def ofText? (w : Text) : Option HeadWord := all.find? (·.text = w)

theorem ofText?_text (head : HeadWord) : ofText? head.text = some head := by
  cases head <;> rfl

end HeadWord

/-- The reserved words that are printed alone, with what they stand for. -/
def Expr.reserved : List (Text × Expr Unit) :=
  [("nil", .literal .nil), ("true", .literal (.bool true)), ("false", .literal (.bool false)),
    ("this", .receiver TokenKind.thisKw.mark ())]

/-- What a word shows: a number, if it does not start like a name. -/
noncomputable def Expr.ofWord (w : Text) : Expr Unit :=
  if w.head?.any Piece.isWordStart then (Expr.reserved.lookup w).getD (.name (.ofText w) ())
  else .literal (.number (Function.invFun Number.printed w))

/-- What an operator shows with its operands. -/
def Expr.ofOperator? (w : Text) : List (Expr Unit) → Option (Expr Unit)
  | [operand] =>
    ([.not, .negate].find? (·.spelling.text = w)).map (.unary · (.ofText w) operand)
  | [left, right] =>
    (([.sequence, .equal, .notEqual, .greater, .greaterEqual, .less, .lessEqual, .plus, .minus,
      .times, .divide, .modulo].find? (·.spelling.text = w)).map
        (.binary · (.ofText w) left right)).or
      (([.and, .or].find? (·.spelling.text = w)).map (.logical · (.ofText w) left right))
  | _ => none

/-- The names in a list. -/
def Mark.ofForms? : List Form → Option (List Mark)
  | [] => some []
  | .word w :: fs => (Mark.ofText w :: ·) <$> Mark.ofForms? fs
  | _ => none

mutual

/-- The expression that a form shows. -/
@[simp] noncomputable def Expr.ofForm? : Form → Option (Expr Unit)
  | .quoted t => some (.literal (.string t))
  | .word w => some (Expr.ofWord w)
  | .list (.word w :: parts) =>
    match HeadWord.ofText? w, parts with
    | none, parts => (Expr.ofForms? parts).bind (Expr.ofOperator? w)
    | some .group, [f] => .group <$> Expr.ofForm? f
    | some .choice, [f, g, h] =>
      .conditional <$> Expr.ofForm? f <*> Expr.ofForm? g <*> Expr.ofForm? h
    | some .assign, [.word x, f] => .assign (.ofText x) () <$> Expr.ofForm? f
    | some .assign, [.list [_, f, .word x], g] =>
      (.set · (.ofText x) ·) <$> Expr.ofForm? f <*> Expr.ofForm? g
    | some .get, [f, .word x] => (.get · (.ofText x)) <$> Expr.ofForm? f
    | some .call, f :: fs =>
      (.call · TokenKind.rightParen.mark ·) <$> Expr.ofForm? f <*> Expr.ofForms? fs
    | some .function, fs => .function TokenKind.funKw.mark <$> Function.ofForms? fs
    | some .inherited, [.word x] => some (.inherited TokenKind.superKw.mark (.ofText x) ())
    | _, _ => none
  | _ => none

/-- The expressions that forms show. -/
@[simp] noncomputable def Expr.ofForms? : List Form → Option (List (Expr Unit))
  | [] => some []
  | f :: fs => .cons <$> Expr.ofForm? f <*> Expr.ofForms? fs

/-- The function that the forms of its parameters and of its body show. -/
@[simp] noncomputable def Function.ofForms? : List Form → Option (Function Unit)
  | .list params :: body => .mk <$> Mark.ofForms? params <*> Stmt.ofForms? body
  | _ => none

/-- The methods that forms show. -/
@[simp] noncomputable def Method.ofForms? : List Form → Option (List (Method Unit))
  | [] => some []
  | .list (.word w :: .word x :: fs) :: ms =>
    (.mk (w = HeadWord.static.text) (.ofText x) · :: ·) <$> Function.ofForms? fs <*>
      Method.ofForms? ms
  | _ => none

/-- The statement that a form shows. -/
@[simp] noncomputable def Stmt.ofForm? : Form → Option (Stmt Unit)
  | .list [.importing path] => some (.importDecl (.ofPath path) none)
  | .list [.importing path, _, .word x] => some (.importDecl (.ofPath path) (some (.ofText x)))
  | .list (.word w :: parts) =>
    match HeadWord.ofText? w, parts with
    | some .expression, [f] => .expression <$> Expr.ofForm? f
    | some .print, [f] => .print <$> Expr.ofForm? f
    | some .varDecl, [.word x] => some (.varDecl (.ofText x) none)
    | some .varDecl, [.word x, f] => (.varDecl (.ofText x) <| some ·) <$> Expr.ofForm? f
    | some .block, fs => .block <$> Stmt.ofForms? fs
    | some .branch, [f, g] => (.branch · · none) <$> Expr.ofForm? f <*> Stmt.ofForm? g
    | some .branch, [f, g, h] =>
      (.branch · · <| some ·) <$> Expr.ofForm? f <*> Stmt.ofForm? g <*> Stmt.ofForm? h
    | some .loop, [f, g] => .loop <$> Expr.ofForm? f <*> Stmt.ofForm? g
    | some .ret, [] => some (.ret TokenKind.returnKw.mark none)
    | some .ret, [f] => (.ret TokenKind.returnKw.mark <| some ·) <$> Expr.ofForm? f
    | some .brk, [] => some (.brk TokenKind.breakKw.mark)
    | some .function, .word x :: fs => .funDecl (.ofText x) <$> Function.ofForms? fs
    | some .classDecl, .word x :: .word _ :: .word y :: fs =>
      .classDecl (.ofText x) (some (.ofText y, ())) <$> Method.ofForms? fs
    | some .classDecl, .word x :: fs => .classDecl (.ofText x) none <$> Method.ofForms? fs
    | _, _ => none
  | _ => none

/-- The statements that forms show. -/
@[simp] noncomputable def Stmt.ofForms? : List Form → Option (List (Stmt Unit))
  | [] => some []
  | f :: fs => .cons <$> Stmt.ofForm? f <*> Stmt.ofForms? fs

end

/-! ### Words -/

/-- What is printed of a number starts with a digit or a sign, and no word does. -/
theorem Number.not_isWordStart_printed {x : Float} (hx : x.isNaN = false) :
    (printed x).head?.any Piece.isWordStart = false := by
  obtain ⟨⟨b, rest, heq, hb⟩, -⟩ := printed_shape hx
  rw [heq]
  show Piece.isWordStart b = false
  rcases hb with hdigit | rfl | rfl
  · rw [Bool.eq_false_iff]
    intro hstart
    simp only [Piece.isWordStart, isDigit, decide_eq_true_eq, UInt8.le_iff_toNat_le,
      ← UInt8.toNat_inj, UInt8.reduceToNat] at hstart hdigit
    omega
  · decide
  · decide

theorem Text.IsWord.head {w : Text} (hw : w.IsWord) : w.head?.any Piece.isWordStart = true := by
  obtain ⟨b, rest, rfl, hb, -⟩ := hw
  exact hb

theorem Text.IsWord.isPlain {w : Text} (hw : w.IsWord) : w.IsPlain :=
  ⟨hw.ne_nil, fun b hb => Text.isPlain_of_class (by decide) (hw.isWordPart b hb)⟩

theorem Number.isPlain_printed {x : Float} (hx : x.isNaN = false) : (printed x).IsPlain := by
  obtain ⟨⟨b, rest, heq, -⟩, hbytes⟩ := printed_shape hx
  refine ⟨by simp [heq], fun b hb => ?_⟩
  rcases hbytes b hb with hdigit | hmark
  · exact Text.isPlain_of_class (by decide) hdigit
  · have hmarks : marks.IsPlain := by decide
    exact hmarks.2 b hmark

theorem Expr.ofWord_identifier {w : Text} (h : w.IsIdentifier) :
    Expr.ofWord w = .name (.ofText w) () := by
  have hlookup : Expr.reserved.lookup w = none := by
    rw [List.lookup_eq_none_iff]
    simp [Expr.reserved, h.2 ("nil", .nilKw) (by decide), h.2 ("true", .trueKw) (by decide),
      h.2 ("false", .falseKw) (by decide), h.ne_this]
  rw [Expr.ofWord, if_pos h.1.head, hlookup, Option.getD_none]

theorem Expr.ofWord_printed {x : Float} (hx : x.isNaN = false) :
    Expr.ofWord (Number.printed x) = .literal (.number x) := by
  rw [Expr.ofWord, if_neg (by simp [Number.not_isWordStart_printed hx]),
    Function.leftInverse_invFun Number.printed_injective]

/-! ### Proper forms -/

namespace Form

theorem isProper_headed {w : Text} {parts : List Form} (hw : (word w).IsProper)
    (hparts : ∀ f ∈ parts, f.IsProper) : (headed w parts).IsProper :=
  .list (List.forall_mem_cons.2 ⟨hw, hparts⟩)

theorem isProper_node {head : HeadWord} {parts : List Form} (h : ∀ f ∈ parts, f.IsProper) :
    (node head parts).IsProper := by
  have hplain : head.text.IsPlain ∧ head.text ≠ keyword := by
    cases head <;> decide
  exact isProper_headed (.word hplain.1 hplain.2) h

end Form

theorem Text.IsIdentifier.isProper {w : Text} (h : w.IsIdentifier) : (Form.word w).IsProper :=
  .word h.1.isPlain (h.2 ("import", .importKw) (by decide))

/-! ### Expressions that are found again -/

/-- An expression is found again in its form. -/
structure Expr.Shown (e : Expr Unit) : Prop where
  proper : e.form.IsProper
  read : Expr.ofForm? e.form = some (e.mapLines forgetLine)

/-- A function is found again in its forms. -/
structure Function.Shown (fn : Function Unit) : Prop where
  proper : ∀ f ∈ fn.forms, f.IsProper
  read : Function.ofForms? fn.forms = some (fn.mapLines forgetLine)

namespace Expr.Shown

variable {e inner left right condition yes no object value callee : Expr Unit}
variable {mark keyword property : Mark}

theorem literal_number {x : Float} (hx : x.isNaN = false) :
    (Expr.literal (.number x)).Shown where
  proper := by
    refine .word (Number.isPlain_printed hx) fun heq => ?_
    have hstart := Number.not_isWordStart_printed hx
    rw [heq] at hstart
    exact absurd hstart (by decide)
  read := by
    show some (Expr.ofWord (Number.printed x)) = _
    rw [Expr.ofWord_printed hx]
    rfl

theorem literal_string (t : Text) : (Expr.literal (.string t)).Shown := ⟨.quoted t, rfl⟩

theorem literal_nil : (Expr.literal .nil).Shown := ⟨.word (by decide) (by decide), rfl⟩

theorem literal_true : (Expr.literal (.bool true)).Shown := ⟨.word (by decide) (by decide), rfl⟩

theorem literal_false : (Expr.literal (.bool false)).Shown := ⟨.word (by decide) (by decide), rfl⟩

theorem name (h : mark.lexeme.IsIdentifier) : (Expr.name mark ()).Shown where
  proper := h.isProper
  read := by
    show some (Expr.ofWord mark.lexeme) = _
    rw [Expr.ofWord_identifier h]
    rfl

theorem receiver (h : keyword.lexeme = TokenKind.thisKw.text) :
    (Expr.receiver keyword ()).Shown where
  proper := .word (by decide) (by decide)
  read := by
    simp only [Expr.mapLines, Mark.mapLine_forgetLine, h]
    rfl

theorem group (h : inner.Shown) : (Expr.group inner).Shown where
  proper := Form.isProper_node (by simpa using h.proper)
  read := by
    simp only [Expr.form, Form.node, Form.headed, Expr.ofForm?, HeadWord.ofText?_text, h.read]
    rfl

theorem all {es : List (Expr Unit)} (h : ∀ e ∈ es, e.Shown) :
    (∀ f ∈ Expr.forms es, f.IsProper) ∧
      Expr.ofForms? (Expr.forms es) = some (Expr.mapLinesAll forgetLine es) := by
  induction es with
  | nil => exact ⟨List.forall_mem_nil _, rfl⟩
  | cons e es ih =>
    obtain ⟨he, hes⟩ := List.forall_mem_cons.1 h
    obtain ⟨hproper, hread⟩ := ih hes
    refine ⟨List.forall_mem_cons.2 ⟨he.proper, hproper⟩, ?_⟩
    simp only [Expr.forms, Expr.ofForms?, he.read, hread]
    rfl

/-- A word that is no head word is read as an operator. -/
theorem operator (w : Text) (es : List (Expr Unit)) (hw : (Form.word w).IsProper)
    (hhead : HeadWord.ofText? w = none) (hes : ∀ e ∈ es, e.Shown)
    (hform : e.form = .headed w (Expr.forms es))
    (hread : Expr.ofOperator? w (Expr.mapLinesAll forgetLine es) = some (e.mapLines forgetLine)) :
    e.Shown where
  proper := hform ▸ Form.isProper_headed hw (all hes).1
  read := by
    rw [hform, Form.headed]
    simp only [Expr.ofForm?, hhead, (all hes).2, Option.bind_some, hread]

theorem unary {op : UnaryOp} (hmark : mark.lexeme = op.spelling.text) (h : e.Shown) :
    (Expr.unary op mark e).Shown := by
  refine operator op.spelling.text [e] ?_ ?_ (by simpa using h) (by rw [Expr.form, hmark]; rfl) ?_
  · cases op <;> exact .word (by decide) (by decide)
  · cases op <;> rfl
  · rw [Expr.mapLines, Mark.mapLine_forgetLine, hmark]
    cases op <;> rfl

theorem binary {op : BinaryOp} (hmark : mark.lexeme = op.spelling.text) (hl : left.Shown)
    (hr : right.Shown) : (Expr.binary op mark left right).Shown := by
  refine operator op.spelling.text [left, right] ?_ ?_ (by simp [hl, hr])
    (by rw [Expr.form, hmark]; rfl) ?_
  · cases op <;> exact .word (by decide) (by decide)
  · cases op <;> rfl
  · rw [Expr.mapLines, Mark.mapLine_forgetLine, hmark]
    cases op <;> rfl

theorem logical {op : LogicalOp} (hmark : mark.lexeme = op.spelling.text) (hl : left.Shown)
    (hr : right.Shown) : (Expr.logical op mark left right).Shown := by
  refine operator op.spelling.text [left, right] ?_ ?_ (by simp [hl, hr])
    (by rw [Expr.form, hmark]; rfl) ?_
  · cases op <;> exact .word (by decide) (by decide)
  · cases op <;> rfl
  · rw [Expr.mapLines, Mark.mapLine_forgetLine, hmark]
    cases op <;> rfl

theorem conditional (hc : condition.Shown) (hy : yes.Shown) (hn : no.Shown) :
    (Expr.conditional condition yes no).Shown where
  proper := Form.isProper_node (by simp [hc.proper, hy.proper, hn.proper])
  read := by
    simp only [Expr.form, Form.node, Form.headed, Expr.ofForm?, HeadWord.ofText?_text, hc.read,
      hy.read, hn.read]
    rfl

theorem assign (hm : mark.form.IsProper) (hv : value.Shown) :
    (Expr.assign mark () value).Shown where
  proper := Form.isProper_node (by simp [hm, hv.proper])
  read := by
    simp only [Expr.form, Mark.form, Form.node, Form.headed, Expr.ofForm?, HeadWord.ofText?_text,
      hv.read]
    rfl

theorem get (ho : object.Shown) (hp : property.form.IsProper) :
    (Expr.get object property).Shown where
  proper := Form.isProper_node (by simp [ho.proper, hp])
  read := by
    simp only [Expr.form, Mark.form, Form.node, Form.headed, Expr.ofForm?, HeadWord.ofText?_text,
      ho.read]
    rfl

/-- A target of an assignment is read as a property first. -/
theorem set (hget : (Expr.get object property).Shown) (hv : value.Shown) :
    (Expr.set object property value).Shown where
  proper := Form.isProper_node (by simpa using ⟨hget.proper, hv.proper⟩)
  read := by
    have hread := hget.read
    simp only [Expr.form, Mark.form, Form.node, Form.headed, Expr.ofForm?,
      HeadWord.ofText?_text] at hread
    obtain ⟨found, hfound, heq⟩ := Option.map_eq_some_iff.1 hread
    obtain ⟨rfl, -⟩ := Expr.get.inj heq
    simp only [Expr.form, Mark.form, Form.node, Form.headed, Expr.ofForm?, HeadWord.ofText?_text,
      hfound, hv.read]
    rfl

theorem call {arguments : List (Expr Unit)} (hparen : mark.lexeme = TokenKind.rightParen.text)
    (hc : callee.Shown) (ha : ∀ e ∈ arguments, e.Shown) :
    (Expr.call callee mark arguments).Shown where
  proper := Form.isProper_node (List.forall_mem_cons.2 ⟨hc.proper, (all ha).1⟩)
  read := by
    simp only [Expr.form, Form.node, Form.headed, Expr.ofForm?, HeadWord.ofText?_text, hc.read,
      (all ha).2, Expr.mapLines, Mark.mapLine_forgetLine, hparen]
    rfl

theorem function {fn : Function Unit} (hk : keyword.lexeme = TokenKind.funKw.text)
    (hf : fn.Shown) : (Expr.function keyword fn).Shown where
  proper := Form.isProper_node hf.proper
  read := by
    simp only [Expr.form, Form.node, Form.headed, Expr.ofForm?, HeadWord.ofText?_text, hf.read,
      Expr.mapLines, Mark.mapLine_forgetLine, hk]
    rfl

theorem inherited (hk : keyword.lexeme = TokenKind.superKw.text) (hm : mark.form.IsProper) :
    (Expr.inherited keyword mark ()).Shown where
  proper := Form.isProper_node (by simpa using hm)
  read := by
    simp only [Expr.form, Mark.form, Form.node, Form.headed, Expr.ofForm?, HeadWord.ofText?_text,
      Expr.mapLines, Mark.mapLine_forgetLine, hk]
    rfl

end Expr.Shown

/-! ### Statements that are found again -/

/-- A statement is found again in its form. -/
structure Stmt.Shown (s : Stmt Unit) : Prop where
  proper : s.form.IsProper
  read : Stmt.ofForm? s.form = some (s.mapLines forgetLine)

/-- A method is found again in its form. -/
structure Method.Shown (m : Method Unit) : Prop where
  name : m.name.form.IsProper
  fn : m.fn.Shown

/-- A string of the source. -/
def Token.IsString (t : Token) : Prop :=
  t.kind = .string ∧ ∃ body : Text, byte '"' ∉ body ∧
    t.lexeme = byte '"' :: (body ++ [byte '"']) ∧ t.literal = .string body

theorem Mark.ofForms?_form (ms : List Mark) :
    Mark.ofForms? (ms.map Mark.form) = some (ms.map (Mark.mapLine forgetLine)) := by
  induction ms with
  | nil => rfl
  | cons m ms ih =>
    show (Mark.ofText m.lexeme :: ·) <$> Mark.ofForms? (ms.map Mark.form) = _
    rw [ih]
    rfl

namespace Stmt.Shown

variable {e condition : Expr Unit} {s yes no body : Stmt Unit} {name super keyword : Mark}
variable {fn : Function Unit} {methods : List (Method Unit)} {path : Token}

theorem all {ss : List (Stmt Unit)} (h : ∀ s ∈ ss, s.Shown) :
    (∀ f ∈ Stmt.forms ss, f.IsProper) ∧
      Stmt.ofForms? (Stmt.forms ss) = some (Stmt.mapLinesAll forgetLine ss) := by
  induction ss with
  | nil => exact ⟨List.forall_mem_nil _, rfl⟩
  | cons s ss ih =>
    obtain ⟨hs, hss⟩ := List.forall_mem_cons.1 h
    obtain ⟨hproper, hread⟩ := ih hss
    refine ⟨List.forall_mem_cons.2 ⟨hs.proper, hproper⟩, ?_⟩
    simp only [Stmt.forms, Stmt.ofForms?, hs.read, hread]
    rfl

theorem expression (h : e.Shown) : (Stmt.expression e).Shown where
  proper := Form.isProper_node (by simpa using h.proper)
  read := by
    simp only [Stmt.form, Form.node, Form.headed, Stmt.ofForm?, HeadWord.ofText?_text, h.read]
    rfl

theorem print (h : e.Shown) : (Stmt.print e).Shown where
  proper := Form.isProper_node (by simpa using h.proper)
  read := by
    simp only [Stmt.form, Form.node, Form.headed, Stmt.ofForm?, HeadWord.ofText?_text, h.read]
    rfl

theorem varDecl {initial : Option (Expr Unit)} (hn : name.form.IsProper)
    (h : ∀ e ∈ initial, e.Shown) : (Stmt.varDecl name initial).Shown := by
  cases initial with
  | none =>
    refine ⟨Form.isProper_node (by simpa using hn), ?_⟩
    simp only [Stmt.form, Mark.form, Form.node, Form.headed, Stmt.ofForm?, HeadWord.ofText?_text]
    rfl
  | some e =>
    refine ⟨Form.isProper_node (by simp [hn, (h e rfl).proper]), ?_⟩
    simp only [Stmt.form, Mark.form, Form.node, Form.headed, Stmt.ofForm?, HeadWord.ofText?_text,
      (h e rfl).read]
    rfl

theorem block {body : List (Stmt Unit)} (h : ∀ s ∈ body, s.Shown) : (Stmt.block body).Shown where
  proper := Form.isProper_node (all h).1
  read := by
    simp only [Stmt.form, Form.node, Form.headed, Stmt.ofForm?, HeadWord.ofText?_text, (all h).2]
    rfl

theorem branch {no : Option (Stmt Unit)} (hc : condition.Shown) (hy : yes.Shown)
    (hn : ∀ s ∈ no, s.Shown) : (Stmt.branch condition yes no).Shown := by
  cases no with
  | none =>
    refine ⟨Form.isProper_node (by simp [hc.proper, hy.proper]), ?_⟩
    simp only [Stmt.form, Form.node, Form.headed, Stmt.ofForm?, HeadWord.ofText?_text, hc.read,
      hy.read]
    rfl
  | some s =>
    refine ⟨Form.isProper_node (by simp [hc.proper, hy.proper, (hn s rfl).proper]), ?_⟩
    simp only [Stmt.form, Form.node, Form.headed, Stmt.ofForm?, HeadWord.ofText?_text, hc.read,
      hy.read, (hn s rfl).read]
    rfl

theorem loop (hc : condition.Shown) (hb : body.Shown) : (Stmt.loop condition body).Shown where
  proper := Form.isProper_node (by simp [hc.proper, hb.proper])
  read := by
    simp only [Stmt.form, Form.node, Form.headed, Stmt.ofForm?, HeadWord.ofText?_text, hc.read,
      hb.read]
    rfl

theorem ret {value : Option (Expr Unit)} (hk : keyword.lexeme = TokenKind.returnKw.text)
    (h : ∀ e ∈ value, e.Shown) : (Stmt.ret keyword value).Shown := by
  cases value with
  | none =>
    refine ⟨Form.isProper_node (List.forall_mem_nil _), ?_⟩
    simp only [Stmt.form, Form.node, Form.headed, Stmt.ofForm?, HeadWord.ofText?_text,
      Stmt.mapLines, Mark.mapLine_forgetLine, hk]
    rfl
  | some e =>
    refine ⟨Form.isProper_node (by simpa using (h e rfl).proper), ?_⟩
    simp only [Stmt.form, Form.node, Form.headed, Stmt.ofForm?, HeadWord.ofText?_text,
      (h e rfl).read, Stmt.mapLines, Mark.mapLine_forgetLine, hk]
    rfl

theorem brk (hk : keyword.lexeme = TokenKind.breakKw.text) : (Stmt.brk keyword).Shown where
  proper := Form.isProper_node (List.forall_mem_nil _)
  read := by
    simp only [Stmt.form, Form.node, Form.headed, Stmt.ofForm?, HeadWord.ofText?_text,
      Stmt.mapLines, Mark.mapLine_forgetLine, hk]
    rfl

theorem funDecl (hn : name.form.IsProper) (hf : fn.Shown) : (Stmt.funDecl name fn).Shown where
  proper := Form.isProper_node (List.forall_mem_cons.2 ⟨hn, hf.proper⟩)
  read := by
    simp only [Stmt.form, Mark.form, Form.node, Form.headed, Stmt.ofForm?, HeadWord.ofText?_text,
      hf.read]
    rfl

theorem methods_all {ms : List (Method Unit)} (h : ∀ m ∈ ms, m.Shown) :
    (∀ f ∈ Method.forms ms, f.IsProper) ∧
      Method.ofForms? (Method.forms ms) = some (Method.mapLinesAll forgetLine ms) := by
  induction ms with
  | nil => exact ⟨List.forall_mem_nil _, rfl⟩
  | cons m ms ih =>
    obtain ⟨hm, hms⟩ := List.forall_mem_cons.1 h
    obtain ⟨hproper, hread⟩ := ih hms
    obtain ⟨static, name, fn⟩ := m
    have hform : (Method.mk static name fn).form.IsProper :=
      Form.isProper_node (List.forall_mem_cons.2 ⟨hm.name, hm.fn.proper⟩)
    have hfn : Function.ofForms? fn.forms = some (fn.mapLines forgetLine) := hm.fn.read
    refine ⟨List.forall_mem_cons.2 ⟨hform, hproper⟩, ?_⟩
    simp only [Method.forms, Method.form, Mark.form, Form.node, Form.headed, Method.ofForms?, hread,
      hfn]
    cases static <;> rfl

/-- The methods of a class are lists, so that a word after its name announces a superclass. -/
theorem classDecl {superclass : Option (Mark × Unit)} (hn : name.form.IsProper)
    (hs : ∀ super ∈ superclass, super.1.form.IsProper) (hm : ∀ m ∈ methods, m.Shown) :
    (Stmt.classDecl name superclass methods).Shown := by
  obtain ⟨hproper, hread⟩ := methods_all hm
  cases superclass with
  | none =>
    refine ⟨Form.isProper_node (List.forall_mem_cons.2 ⟨hn, hproper⟩), ?_⟩
    cases methods with
    | nil =>
      simp only [Stmt.form, Method.forms, Mark.form, Form.node, Form.headed, Stmt.ofForm?,
        HeadWord.ofText?_text]
      rfl
    | cons m ms =>
      obtain ⟨static, x, fn⟩ := m
      simp only [Method.forms, Method.form, Mark.form, Form.node, Form.headed] at hread
      simp only [Stmt.form, Method.forms, Method.form, Mark.form, Form.node, Form.headed,
        Stmt.ofForm?, HeadWord.ofText?_text, hread]
      rfl
  | some super =>
    have hless : (Form.word "<").IsProper := .word (by decide) (by decide)
    refine ⟨Form.isProper_node ?_, ?_⟩
    · exact List.forall_mem_cons.2 ⟨hn, List.forall_mem_cons.2 ⟨hless,
        List.forall_mem_cons.2 ⟨hs super rfl, hproper⟩⟩⟩
    · simp only [Stmt.form, Mark.form, Form.node, Form.headed, Stmt.ofForm?,
        HeadWord.ofText?_text, hread]
      rfl

theorem importDecl {asName : Option Mark} (hp : path.IsString)
    (hn : ∀ m ∈ asName, m.form.IsProper) : (Stmt.importDecl path asName).Shown := by
  obtain ⟨hkind, body, hbody, htext, hliteral⟩ := hp
  have hpath : path.mapLine forgetLine = .ofPath path.lexeme := by
    show Token.mk path.kind path.lexeme path.literal 0 = _
    rw [hkind, hliteral, htext, Token.ofPath, List.tail_cons, List.dropLast_concat]
  have hproper : (Form.importing path.lexeme).IsProper := htext ▸ .importing hbody
  cases asName with
  | none =>
    refine ⟨.list (by simpa using hproper), ?_⟩
    simp only [Stmt.form, Form.imported, Stmt.ofForm?, Stmt.mapLines, hpath]
    rfl
  | some m =>
    have has : (Form.word "as").IsProper := .word (by decide) (by decide)
    refine ⟨.list (by simpa using ⟨hproper, has, hn m rfl⟩), ?_⟩
    simp only [Stmt.form, Form.imported, Mark.form, Stmt.ofForm?, Stmt.mapLines, hpath]
    rfl

end Stmt.Shown

theorem Function.Shown.ofParts {params : List Mark} {body : List (Stmt Unit)}
    (hp : ∀ m ∈ params, m.form.IsProper) (hb : ∀ s ∈ body, s.Shown) :
    (Function.mk params body).Shown where
  proper :=
    List.forall_mem_cons.2 ⟨.list (List.forall_mem_map.2 hp), (Stmt.Shown.all hb).1⟩
  read := by
    simp only [Function.forms, Function.ofForms?, Mark.ofForms?_form, (Stmt.Shown.all hb).2]
    rfl

/-! ### Trees of sources are found again -/

/-- A token is as the scanner makes it. -/
def Token.IsRead (t : Token) : Prop := t.kind ≠ .eof → Lexeme (.token t.kind t.literal) t.lexeme

namespace Token.IsRead

variable {t : Token} {kind : TokenKind}

theorem lexeme (h : t.IsRead) (hk : t.kind = kind) (hne : kind ≠ .eof) :
    Lexeme (.token kind t.literal) t.lexeme := by
  subst hk
  exact h hne

theorem text_eq (h : t.IsRead) (hk : t.kind = kind)
    (hfixed : kind ∉ [.eof, .identifier, .number, .string]) : t.lexeme = kind.text := by
  rw [List.mem_cons, not_or] at hfixed
  exact (h.lexeme hk hfixed.1).text_eq hfixed.2

theorem name (h : t.IsRead) (hk : t.kind = .identifier) : t.mark.form.IsProper :=
  (h.lexeme hk (by decide)).isIdentifier.isProper

/-- Numbers come from numerals, and no numeral is read as something else. -/
theorem number (h : t.IsRead) (hk : t.kind = .number) : (Expr.literal t.literal).Shown := by
  have hread := h.lexeme hk (by decide)
  generalize t.literal = literal at hread
  generalize t.lexeme = text at hread
  cases hread with
  | operator hmem => simp [TokenKind.operators] at hmem
  | keyword hmem => simp [TokenKind.keywords] at hmem
  | number _ hx =>
    simp only [Number.ofNumeral?] at hx
    split at hx
    · cases hx
    · cases hx
      exact .literal_number (Number.isNaN_ofDecimal _ _)

theorem isString (h : t.IsRead) (hk : t.kind = .string) : t.IsString := by
  have hread := h.lexeme hk (by decide)
  refine ⟨hk, ?_⟩
  generalize t.literal = literal at hread
  generalize t.lexeme = text at hread
  cases hread with
  | operator hmem => simp [TokenKind.operators] at hmem
  | keyword hmem => simp [TokenKind.keywords] at hmem
  | string hbody => exact ⟨_, hbody, rfl, rfl⟩

end Token.IsRead

namespace Grammar

/-- The trees of a phrase are found again in their forms. -/
def Phrase.Shown : Phrase → Prop
  | .expr e => e.Shown
  | .exprs es => ∀ e ∈ es, e.Shown
  | .clause e => ∀ e' ∈ e, e'.Shown
  | .names ms => ∀ m ∈ ms, m.form.IsProper
  | .fn f => f.Shown
  | .methods ms => ∀ m ∈ ms, m.Shown
  | .stmt s => s.Shown
  | .initial s => ∀ s' ∈ s, s'.Shown
  | .stmts ss => ∀ s ∈ ss, s.Shown

theorem Phrase.shown_forLoop {i : Option (Stmt Unit)} {c inc : Option (Expr Unit)}
    {b : Stmt Unit} (hi : ∀ s ∈ i, s.Shown) (hc : ∀ e ∈ c, e.Shown) (hinc : ∀ e ∈ inc, e.Shown)
    (hb : b.Shown) : (forLoop i c inc b).Shown := by
  have hcondition : (c.getD (.literal (.bool true))).Shown := by
    cases c with
    | none => exact .literal_true
    | some e => exact hc e rfl
  -- the increment stands in a block with the body
  have hround : ∃ round : Stmt Unit, round.Shown ∧
      ∀ i, forLoop i c inc b = forLoop i c none round := by
    cases inc with
    | none => exact ⟨b, hb, fun _ => rfl⟩
    | some e => exact ⟨_, .block (by simp [hb, Stmt.Shown.expression (hinc e rfl)]), fun _ => rfl⟩
  obtain ⟨round, hround, heq⟩ := hround
  rw [heq]
  cases i with
  | none => exact .loop hcondition hround
  | some s => exact .block (by simp [hi s rfl, Stmt.Shown.loop hcondition hround])

/-- Each mark comes from one token, and the rule that takes the token asks for its kind. -/
theorem Derives.shown {n : Nat} {g : Bool} {symbol : Symbol} {ts : List Token} {phrase : Phrase}
    (h : Derives n g symbol ts phrase) (ht : ∀ t ∈ ts, t.IsRead) : phrase.Shown := by
  induction h with try simp only [List.forall_mem_append, List.forall_mem_cons] at ht
  | falseLit => exact .literal_false
  | trueLit => exact .literal_true
  | nilLit => exact .literal_nil
  | numberLit hk => exact ht.1.number hk
  | stringLit hk =>
    obtain ⟨-, body, -, -, hliteral⟩ := ht.1.isString hk
    rw [hliteral]
    exact .literal_string body
  | name hk => exact .name (ht.1.lexeme hk (by decide)).isIdentifier
  | receiver hk => exact .receiver (ht.1.text_eq hk (by decide))
  | inherited hk _ hm => exact .inherited (ht.1.text_eq hk (by decide)) (ht.2.2.1.name hm)
  | group _ _ _ ih => exact .group (ih ht.2.1)
  | anonymous hk _ _ ih => exact .function (ht.1.text_eq hk (by decide)) (ih ht.2.2)
  | call _ _ _ hr ihc iha =>
    exact .call (ht.2.2.2.1.text_eq hr (by decide)) (ihc ht.1) (iha ht.2.2.1)
  | property _ _ hm ih => exact .get (ih ht.1) (ht.2.2.1.name hm)
  | @unary _ _ op _ _ _ hk _ ih =>
    exact .unary (ht.1.text_eq hk (by cases op <;> decide)) (ih ht.2)
  | @binary _ _ _ op _ _ _ _ _ _ _ hk _ ihl ihr =>
    exact .binary (ht.2.1.text_eq hk (by cases op <;> decide)) (ihl ht.1) (ihr ht.2.2)
  | @logical _ _ _ op _ _ _ _ _ _ _ hk _ ihl ihr =>
    exact .logical (ht.2.1.text_eq hk (by cases op <;> decide)) (ihl ht.1) (ihr ht.2.2)
  | conditional _ _ _ _ _ ihc ihy ihn =>
    exact .conditional (ihc ht.1) (ihy ht.2.2.1) (ihn ht.2.2.2.2)
  | assign _ _ _ ihm ihv =>
    -- the target is derived as a name that is read
    exact .assign (ihm ht.1).proper (ihv ht.2.2)
  | set _ _ _ ihget ihv => exact .set (ihget ht.1) (ihv ht.2.2)
  | sequence _ _ hk _ ihl ihr =>
    exact .binary (ht.2.1.text_eq hk (by decide)) (ihl ht.1) (ihr ht.2.2)
  | nextItem _ _ _ _ ihs ih =>
    exact List.forall_mem_append.2 ⟨ihs ht.1, List.forall_mem_singleton.2 (ih ht.2.2)⟩
  | firstName hk => exact List.forall_mem_singleton.2 (ht.1.name hk)
  | nextName _ _ _ hm ih =>
    exact List.forall_mem_append.2 ⟨ih ht.1, List.forall_mem_singleton.2 (ht.2.2.1.name hm)⟩
  | noArguments | noParameters | noClause | noInitializer | noMethods | noDeclarations =>
    simp [Phrase.Shown]
  | callee _ ih | operand _ ih | single _ _ ih | disjunction _ ih | unassigned _ ih | lone _ ih
  | arguments _ ih | parameters _ ih | expression _ ih | statement _ ih => exact ih ht
  | firstItem _ ih | clause _ ih | initializer _ ih => simpa [Phrase.Shown] using ih ht
  | function _ _ _ _ _ ihp ihb => exact .ofParts (ihp ht.1) (ihb ht.2.2.2.1)
  | unset hm _ => exact .varDecl (ht.1.name hm) (by simp)
  | initialized hm _ _ _ ih => exact .varDecl (ht.1.name hm) (by simpa [Phrase.Shown] using ih ht.2.2.1)
  | simple _ _ ih => exact .expression (ih ht.1)
  | varInitializer _ _ ih => simpa [Phrase.Shown] using ih ht.2
  | method _ hm _ _ ihs ih =>
    exact List.forall_mem_append.2
      ⟨ihs ht.1, List.forall_mem_singleton.2 ⟨ht.2.1.name hm, ih ht.2.2.2⟩⟩
  | staticMethod _ _ hm _ _ ihs ih =>
    exact List.forall_mem_append.2
      ⟨ihs ht.1, List.forall_mem_singleton.2 ⟨ht.2.2.1.name hm, ih ht.2.2.2.2⟩⟩
  | print _ _ _ ih => exact .print (ih ht.2.1)
  | block _ _ _ ih => exact .block (ih ht.2.1)
  | ifThen _ _ _ _ _ ihc ihb => exact .branch (ihc ht.2.2.1) (ihb ht.2.2.2.2) (by simp)
  | ifElse _ _ _ _ _ _ _ ihc ihy ihn =>
    exact .branch (ihc ht.2.2.1) (ihy ht.2.2.2.2.1)
      (by simpa [Phrase.Shown] using ihn ht.2.2.2.2.2.2)
  | whileLoop _ _ _ _ _ ihc ihb => exact .loop (ihc ht.2.2.1) (ihb ht.2.2.2.2)
  | forLoop _ _ _ _ _ _ _ _ ihi ihc ihinc ihb =>
    exact Phrase.shown_forLoop (ihi ht.2.2.1) (ihc ht.2.2.2.1) (ihinc ht.2.2.2.2.2.1)
      (ihb ht.2.2.2.2.2.2.2)
  | ret hk _ _ ih => exact .ret (ht.1.text_eq hk (by decide)) (ih ht.2.1)
  | brk hk _ => exact .brk (ht.1.text_eq hk (by decide))
  | varDecl _ _ ih => exact ih ht.2
  | funDecl _ hm _ _ ih => exact .funDecl (ht.2.1.name hm) (ih ht.2.2.2)
  | classDecl _ hm _ _ _ ih => exact .classDecl (ht.2.1.name hm) (by simp) (ih ht.2.2.2.1)
  | subclassDecl _ hm _ hsup _ _ _ ih =>
    exact .classDecl (ht.2.1.name hm) (by simpa using ht.2.2.2.1.name hsup) (ih ht.2.2.2.2.2.1)
  | importDecl _ hp _ => exact .importDecl (ht.2.1.isString hp) (by simp)
  | importAs _ hp _ hm _ =>
    exact .importDecl (ht.2.1.isString hp) (by simpa using ht.2.2.2.1.name hm)
  | declaration _ _ ihs ih =>
    exact List.forall_mem_append.2 ⟨ihs ht.1, List.forall_mem_singleton.2 (ih ht.2)⟩

end Grammar

/-- The statements of a source with which the parser finds nothing wrong. -/
theorem Stmt.shown_of_parsed {source : Text} {program : Program Unit}
    (h : Parsed.ofTokens (Scan.ofSource source).tokens = ⟨program, []⟩) {s : Stmt Unit}
    (hs : s ∈ program) : s.Shown :=
  (Grammar.Derives.of_parsed h).shown (fun _ ht => Scan.lexeme (Token.untilEnd_subset _ ht)) s hs

/-- If two statements of sources with which the parser finds nothing wrong are printed alike, they
are the same but for the lines of their marks. -/
theorem Stmt.same_of_printed_eq {source source' : Text} {program program' : Program Unit}
    (h : Parsed.ofTokens (Scan.ofSource source).tokens = ⟨program, []⟩)
    (h' : Parsed.ofTokens (Scan.ofSource source').tokens = ⟨program', []⟩) {s s' : Stmt Unit}
    (hs : s ∈ program) (hs' : s' ∈ program') (hprinted : s.printed = s'.printed) :
    s.mapLines forgetLine = s'.mapLines forgetLine := by
  have hshown := Stmt.shown_of_parsed h hs
  have hshown' := Stmt.shown_of_parsed h' hs'
  have hrender : s.form.render ++ [] = s'.form.render ++ [] := by
    rw [← s.render_eq, ← s'.render_eq]
    exact hprinted
  obtain ⟨hform, -⟩ :=
    hshown.proper.isUnique hshown'.proper Text.stops_nil Text.stops_nil hrender
  have hread := hshown.read
  rw [hform, hshown'.read] at hread
  exact (Option.some.inj hread).symm

theorem Stmt.same_of_printed_eq_loops :
    ∃ s s' : Stmt Unit,
      Parsed.ofTokens (Scan.ofSource "for (; x;)\n  f(y);").tokens = ⟨[s], []⟩ ∧
      Parsed.ofTokens (Scan.ofSource "while (x) f(y);").tokens = ⟨[s'], []⟩ ∧
      s.printed = s'.printed ∧ s.mapLines forgetLine = s'.mapLines forgetLine := by
  have hfor : Parsed.ofTokens (Scan.ofSource "for (; x;)\n  f(y);").tokens =
      ⟨[.loop (.name ⟨"x", 1⟩ ())
        (.expression (.call (.name ⟨"f", 2⟩ ()) ⟨")", 2⟩ [.name ⟨"y", 2⟩ ()]))], []⟩ := by
    set_option maxRecDepth 4000 in cbv
  have hwhile : Parsed.ofTokens (Scan.ofSource "while (x) f(y);").tokens =
      ⟨[.loop (.name ⟨"x", 1⟩ ())
        (.expression (.call (.name ⟨"f", 1⟩ ()) ⟨")", 1⟩ [.name ⟨"y", 1⟩ ()]))], []⟩ := by
    set_option maxRecDepth 4000 in cbv
  refine ⟨_, _, hfor, hwhile, rfl, ?_⟩
  exact Stmt.same_of_printed_eq hfor hwhile List.mem_cons_self List.mem_cons_self rfl

end Lox
