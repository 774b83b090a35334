import Lox.Proofs.Source.Lexicon
import Lox.Proofs.Text.Quoted

/-!
# Forms

A printed tree is a form: a word, a quoted text, or forms in parentheses with blanks between them.
Where each of these ends can be seen from the text, so a text is the text of one form only. The
keyword of an import and the path after it are taken as one form, because the path stands between
quotes as it is, unlike all other text.
-/

namespace Lox

open Text (byte)

/-! ### Plain bytes -/

namespace Text

/-- The bytes that end a word or start another kind of form. -/
def delimiters : List UInt8 := [byte ' ', byte '(', byte ')', byte '"']

/-- Whether a byte is none of them. -/
def isPlain (b : UInt8) : Bool := b ∉ delimiters

/-- A word of plain bytes. -/
def IsPlain (t : Text) : Prop := t ≠ [] ∧ ∀ b ∈ t, isPlain b = true

instance : DecidablePred IsPlain := fun t =>
  decidable_of_iff (t ≠ [] ∧ t.all isPlain = true) (and_congr_right' List.all_eq_true)

/-- The bytes of a class without delimiters are plain. -/
theorem isPlain_of_class {p : UInt8 → Bool} (hp : delimiters.any p = false) {b : UInt8}
    (hb : p b = true) : isPlain b = true :=
  decide_eq_true fun hmem => absurd hb (List.any_eq_false.1 hp b hmem)

/-- A text before which a word ends. -/
def Stops (t : Text) : Prop := ∀ b rest, t = b :: rest → b = byte ' ' ∨ b = byte ')'

theorem stops_nil : Stops [] := by
  intro b rest h
  cases h

theorem stops_blank (t : Text) : Stops (byte ' ' :: t) := by
  rintro b rest ⟨⟩
  exact .inl rfl

theorem stops_close (t : Text) : Stops (byte ')' :: t) := by
  rintro b rest ⟨⟩
  exact .inr rfl

theorem cut_plain_append {w : Text} (hw : ∀ b ∈ w, isPlain b = true) {k : Text} (hk : Stops k) :
    (w ++ k).cut isPlain = (w, k) := by
  rw [cut_append_of_all hw]
  cases k with
  | nil => simp [cut]
  | cons b rest =>
    have hb : isPlain b = false := by
      rcases hk b rest rfl with rfl | rfl <;> decide
    rw [cut_cons_of_neg hb, List.append_nil]

end Text

/-! ### Forms and their texts -/

/-- The structure of a printed tree. -/
inductive Form where
  | word (w : Text)
  | quoted (t : Text)
  /-- The keyword of an import and its path, with the quotes around it. -/
  | importing (path : Text)
  | list (items : List Form)

namespace Form

/-- The keyword of an import. -/
def keyword : Text := "import"

mutual

/-- The text of a form. -/
def render : Form → Text
  | word w => w
  | quoted t => t.quoted
  | importing path => keyword ++ byte ' ' :: path
  | list items => byte '(' :: renderItems items

/-- The items of a list with blanks between them, and the closing parenthesis. -/
def renderItems : List Form → Text
  | [] => [byte ')']
  | f :: fs => f.render ++ renderRest fs

/-- Further items of a list, with a blank before each, and the closing parenthesis. -/
def renderRest : List Form → Text
  | [] => [byte ')']
  | f :: fs => byte ' ' :: f.render ++ renderRest fs

end

/-- Words are plain and not the keyword of an import; there is no quote inside a path. -/
inductive IsProper : Form → Prop where
  | word {w : Text} : w.IsPlain → w ≠ keyword → IsProper (word w)
  | quoted (t : Text) : IsProper (quoted t)
  | importing {body : Text} : byte '"' ∉ body →
      IsProper (importing (byte '"' :: body ++ [byte '"']))
  | list {items : List Form} : (∀ f ∈ items, IsProper f) → IsProper (list items)

theorem keyword_ne_nil : keyword ≠ [] := by decide

theorem stops_renderRest (fs : List Form) (k : Text) : Text.Stops (renderRest fs ++ k) := by
  cases fs with
  | nil => exact Text.stops_close k
  | cons f fs => exact Text.stops_blank _

/-- The plain bytes at the start of a form. -/
def lead : Form → Text
  | word w => w
  | importing _ => keyword
  | _ => []

/-- What follows them. -/
def remainder : Form → Text
  | word _ => []
  | importing path => byte ' ' :: path
  | f => f.render

theorem cut_render {f : Form} (hf : f.IsProper) {k : Text} (hk : Text.Stops k) :
    (f.render ++ k).cut Text.isPlain = (f.lead, f.remainder ++ k) := by
  cases hf with
  | word hw _ => exact Text.cut_plain_append hw.2 hk
  | quoted t =>
    rw [render, Text.quoted]
    exact Text.cut_cons_of_neg (by decide) _
  | importing hbody =>
    have hkeyword : keyword.all Text.isPlain = true := by decide
    rw [render, List.append_assoc, List.cons_append]
    exact Text.cut_plain_append (List.all_eq_true.1 hkeyword) (Text.stops_blank _)
  | list hitems =>
    rw [render]
    exact Text.cut_cons_of_neg (by decide) _

/-- Where a form is found again, its leading bytes and what follows them are. -/
theorem lead_eq {f g : Form} (hf : f.IsProper) (hg : g.IsProper) {k l : Text} (hk : Text.Stops k)
    (hl : Text.Stops l) (h : f.render ++ k = g.render ++ l) :
    f.lead = g.lead ∧ f.remainder ++ k = g.remainder ++ l := by
  have hcut := congrArg (Text.cut Text.isPlain) h
  rw [cut_render hf hk, cut_render hg hl] at hcut
  exact Prod.mk.inj hcut

/-! ### Finding a form again -/

/-- A form is the only one that a text starts with, if the text says where it ends. -/
def IsUnique (f : Form) : Prop :=
  ∀ {g : Form}, g.IsProper → ∀ {k l : Text}, Text.Stops k → Text.Stops l →
    f.render ++ k = g.render ++ l → f = g ∧ k = l

theorem isUnique_word {w : Text} (hplain : w.IsPlain) (hw : w ≠ keyword) : IsUnique (word w) := by
  intro g hg k l hk hl h
  obtain ⟨hlead, hrest⟩ := lead_eq (.word hplain hw) hg hk hl h
  cases hg with
  | word =>
    obtain rfl : w = _ := hlead
    exact ⟨rfl, hrest⟩
  | quoted | list => exact absurd hlead hplain.1
  | importing => exact absurd hlead hw

theorem isUnique_quoted (t : Text) : IsUnique (quoted t) := by
  intro g hg k l hk hl h
  obtain ⟨hlead, hrest⟩ := lead_eq (.quoted t) hg hk hl h
  cases hg with
  | word hplain => exact absurd hlead.symm hplain.1
  | quoted u =>
    obtain ⟨rfl, hkl⟩ := Text.quoted_append_inj h
    exact ⟨rfl, hkl⟩
  | list => exact absurd (List.cons.inj hrest).1 (by decide)
  | importing => exact absurd hlead.symm keyword_ne_nil

/-- The body of a path ends at the first quote. -/
theorem isUnique_importing {body : Text} (hbody : byte '"' ∉ body) :
    IsUnique (importing (byte '"' :: body ++ [byte '"'])) := by
  intro g hg k l hk hl h
  obtain ⟨hlead, hrest⟩ := lead_eq (.importing hbody) hg hk hl h
  cases hg with
  | word _ hw => exact absurd hlead.symm hw
  | quoted | list => exact absurd hlead keyword_ne_nil
  | @importing body' hbody' =>
    have hpaths : body ++ byte '"' :: k = body' ++ byte '"' :: l := by
      simpa [remainder] using hrest
    have heq := congrArg (Text.cut (· ≠ byte '"')) hpaths
    rw [Text.cut_append_of_notMem hbody, Text.cut_append_of_notMem hbody'] at heq
    obtain ⟨rfl, hkl⟩ := Prod.mk.inj heq
    exact ⟨rfl, (List.cons.inj hkl).2⟩

theorem renderRest_inj {fs gs : List Form} (hfs : ∀ f ∈ fs, f.IsUnique)
    (hgs : ∀ g ∈ gs, g.IsProper) {k l : Text} (h : renderRest fs ++ k = renderRest gs ++ l) :
    fs = gs ∧ k = l := by
  induction fs generalizing gs with
  | nil =>
    cases gs with
    | nil => exact ⟨rfl, List.append_cancel_left h⟩
    | cons g gs => exact absurd (List.cons.inj h).1 (by decide)
  | cons f fs ih =>
    cases gs with
    | nil => exact absurd (List.cons.inj h).1 (by decide)
    | cons g gs =>
      obtain ⟨hf, hfsrest⟩ := List.forall_mem_cons.1 hfs
      obtain ⟨hg, hgsrest⟩ := List.forall_mem_cons.1 hgs
      have htail : f.render ++ (renderRest fs ++ k) = g.render ++ (renderRest gs ++ l) := by
        simpa [renderRest] using h
      obtain ⟨rfl, hrest⟩ := hf hg (stops_renderRest fs k) (stops_renderRest gs l) htail
      obtain ⟨rfl, hkl⟩ := ih hfsrest hgsrest hrest
      exact ⟨rfl, hkl⟩

/-- No form starts with a closing parenthesis. -/
theorem close_ne_render {f : Form} (hf : f.IsProper) (k l : Text) :
    byte ')' :: k ≠ f.render ++ l := by
  have hplain {w : Text} (hw : w.IsPlain) (t : Text) : byte ')' :: k ≠ w ++ t := by
    obtain ⟨b, rest, rfl⟩ := List.exists_cons_of_ne_nil hw.1
    rintro ⟨⟩
    exact absurd (hw.2 _ List.mem_cons_self) (by decide)
  cases hf with
  | word hw _ => exact hplain hw l
  | quoted t => exact fun h => absurd (List.cons.inj h).1 (by decide)
  | importing hbody => exact fun h => absurd (List.cons.inj h).1 (by decide)
  | list hitems => exact fun h => absurd (List.cons.inj h).1 (by decide)

theorem isUnique_list {fs : List Form} (hproper : ∀ f ∈ fs, f.IsProper)
    (hfs : ∀ f ∈ fs, f.IsUnique) : IsUnique (list fs) := by
  intro g hg k l hk hl h
  obtain ⟨hlead, hrest⟩ := lead_eq (.list hproper) hg hk hl h
  cases hg with
  | word hplain => exact absurd hlead.symm hplain.1
  | quoted => exact absurd (List.cons.inj hrest).1 (by decide)
  | importing => exact absurd hlead.symm keyword_ne_nil
  | @list gs hgs =>
    have hitems : renderItems fs ++ k = renderItems gs ++ l := (List.cons.inj h).2
    cases fs with
    | nil =>
      cases gs with
      | nil => exact ⟨rfl, List.append_cancel_left hitems⟩
      | cons g gs =>
        rw [renderItems, renderItems, List.append_assoc] at hitems
        exact absurd hitems (close_ne_render (hgs g List.mem_cons_self) _ _)
    | cons f fs =>
      obtain ⟨hf, hfsrest⟩ := List.forall_mem_cons.1 hfs
      cases gs with
      | nil =>
        rw [renderItems, renderItems, List.append_assoc] at hitems
        exact absurd hitems.symm (close_ne_render (hproper f List.mem_cons_self) _ _)
      | cons g gs =>
        obtain ⟨hg, hgsrest⟩ := List.forall_mem_cons.1 hgs
        rw [renderItems, renderItems, List.append_assoc, List.append_assoc] at hitems
        obtain ⟨rfl, htail⟩ := hf hg (stops_renderRest fs k) (stops_renderRest gs l) hitems
        obtain ⟨rfl, hkl⟩ := renderRest_inj hfsrest hgsrest htail
        exact ⟨rfl, hkl⟩

/-- A text is the text of one form only, and where the form is followed by something else its end
can be seen. -/
theorem IsProper.isUnique {f : Form} (hf : f.IsProper) : f.IsUnique := by
  induction hf with
  | word hplain hw => exact isUnique_word hplain hw
  | quoted t => exact isUnique_quoted t
  | importing hbody => exact isUnique_importing hbody
  | list hitems ih => exact isUnique_list hitems ih

end Form

end Lox
