import Mathlib.Data.List.Nodup
import OntoFold.Proofs.Text.Quotation
import OntoFold.Term.Render

/-!
# Where parts end

Functional style has no table of lengths: what is read has to show where it ends. A name, a label
and a number end at a character that they do not contain, and what a keyword begins ends at the
closing parenthesis. So each part is read back in front of whatever follows it, and the parts of
lists and pairs one after the other.

* `ReadsBack`: a part can be read back where a space, a parenthesis or the end follows.
* `Encloses`: a text can be read back in front of its closing parenthesis.
* `encloses_separated`, `ReadsBack.followed`, `ReadsBack.counted`: what stands in parentheses.
* `Keyword.text_inj`: different keywords are different words.
* `Frames.readsBack`: what stands in a frame is read back together with the frame.
-/

namespace OntoFold

variable {r s : List Char}

/-! ## Parts and their ends -/

/-- What follows a part in a text: a space, a closing parenthesis or nothing. -/
def Stops (r : List Char) : Prop := ∀ c ∈ r.head?, c = ' ' ∨ c = ')'

@[simp] theorem stops_cons {c : Char} : Stops (c :: r) ↔ c = ' ' ∨ c = ')' := by simp [Stops]

/-- The part of a value ends where the part of a legible value that begins a text in the same way
does, and then the values are equal. -/
def ReadsBack {α : Type} (render : α → String) (legible : α → Bool) (a : α) : Prop :=
  ∀ b r s, legible b = true → Stops r → Stops s →
    (render a).toList ++ r = (render b).toList ++ s → a = b ∧ r = s

/-- The text of a value ends at its closing parenthesis, and so does the text of a legible value
that begins in the same way; then the values are equal. -/
def Encloses {α : Type} (render : α → String) (legible : α → Bool) (a : α) : Prop :=
  ∀ b r s, legible b = true →
    (render a).toList ++ ')' :: r = (render b).toList ++ ')' :: s → a = b ∧ r = s

/-- Parts begin with something at which no part stops. -/
def Opens {α : Type} (render : α → String) : Prop := ∀ a r, ¬ Stops ((render a).toList ++ r)

theorem space_append : " ".toList ++ r = ' ' :: r := rfl

/-- A number can be read back up to the space after it. -/
theorem number_append {m n : Nat}
    (h : (toString m).toList ++ ' ' :: r = (toString n).toList ++ ' ' :: s) : m = n ∧ r = s := by
  have hDigits : ∀ n : Nat, ∀ c ∈ Nat.toDigits 10 n, ¬ c = ' ' := by
    rintro n c hc rfl
    exact absurd (Nat.isDigit_of_mem_toDigits (by decide) (by decide) hc) (by decide)
  simp only [Nat.toString_eq_ofList_toDigits, String.toList_ofList] at h
  obtain ⟨hText, hRest⟩ := append_inj_of_stop (hDigits m) (hDigits n) (by simp) (by simp) h
  refine ⟨?_, (List.cons.inj hRest).2⟩
  calc
    m = Nat.ofDigitChars 10 (Nat.toDigits 10 m) 0 := Nat.ofDigitChars_ten_toDigits.symm
    _ = Nat.ofDigitChars 10 (Nat.toDigits 10 n) 0 := by rw [hText]
    _ = n := Nat.ofDigitChars_ten_toDigits

section Lists

variable {α β : Type} {render : α → String} {legible : α → Bool} {a : α} {as : List α}
  {renderOther : β → String} {legibleOther : β → Bool} {b : β} {bs : List β}

theorem toList_spaced_cons (text : String) (texts : List String) :
    (spaced (text :: texts)).toList = ' ' :: (text.toList ++ (spaced texts).toList) := by
  simp [spaced]

theorem stops_spaced (texts : List String) : Stops ((spaced texts).toList ++ ')' :: r) := by
  cases texts with
  | nil => simp [spaced]
  | cons text texts => simp [toList_spaced_cons]

theorem ReadsBack.encloses (ha : ReadsBack render legible a) : Encloses render legible a := by
  intro b r s hb h
  obtain ⟨rfl, hRest⟩ := ha b _ _ hb (by simp) (by simp) h
  exact ⟨rfl, (List.cons.inj hRest).2⟩

theorem ReadsBack.space {a' : α} (ha : ReadsBack render legible a) (ha' : legible a' = true)
    (h : (render a).toList ++ ' ' :: r = (render a').toList ++ ' ' :: s) : a = a' ∧ r = s := by
  obtain ⟨rfl, hRest⟩ := ha a' _ _ ha' (by simp) (by simp) h
  exact ⟨rfl, (List.cons.inj hRest).2⟩

/-- Parts after spaces can be read back. -/
theorem encloses_spaced (has : ∀ a ∈ as, ReadsBack render legible a) :
    Encloses (fun as => spaced (as.map render)) (List.all · legible) as := by
  intro bs r s hLegible h
  induction as generalizing bs with
  | nil =>
    cases bs with
    | nil => simpa [spaced] using h
    | cons b bs => simp [spaced] at h
  | cons a as ih =>
    cases bs with
    | nil => simp [spaced] at h
    | cons b bs =>
      obtain ⟨hb, hbs⟩ := Bool.and_eq_true_iff.1 hLegible
      simp only [List.map_cons, toList_spaced_cons, List.cons_append, List.append_assoc,
        List.cons.injEq, true_and] at h
      obtain ⟨rfl, hTail⟩ := has a List.mem_cons_self b _ _ hb (stops_spaced _) (stops_spaced _) h
      obtain ⟨rfl, hRest⟩ := ih (fun o ho => has o (List.mem_cons_of_mem _ ho)) bs hbs hTail
      exact ⟨rfl, hRest⟩

/-- Parts with spaces between them can be read back. -/
theorem encloses_separated (hOpens : Opens render) (has : ∀ a ∈ as, ReadsBack render legible a) :
    Encloses (fun as => separated (as.map render)) (List.all · legible) as := by
  intro bs r s hLegible h
  -- A part does not begin where the empty list ends.
  have hEmpty : ∀ {b : α} {bs : List α} {r s : List Char},
      (separated ([].map render)).toList ++ ')' :: r ≠
        (separated ((b :: bs).map render)).toList ++ ')' :: s := by
    intro b bs r s h
    simp only [separated, List.map_nil, List.map_cons, String.toList_append,
      List.append_assoc] at h
    refine hOpens b ((spaced (bs.map render)).toList ++ ')' :: s) ?_
    rw [← h]
    simp
  cases as with
  | nil =>
    cases bs with
    | nil => simpa [separated] using h
    | cons b bs => exact absurd h hEmpty
  | cons a as =>
    cases bs with
    | nil => exact absurd h.symm hEmpty
    | cons b bs =>
      obtain ⟨hb, hbs⟩ := Bool.and_eq_true_iff.1 hLegible
      simp only [separated, List.map_cons, String.toList_append, List.append_assoc] at h
      obtain ⟨rfl, hTail⟩ := has a List.mem_cons_self b _ _ hb (stops_spaced _) (stops_spaced _) h
      obtain ⟨rfl, hRest⟩ :=
        encloses_spaced (fun o ho => has o (List.mem_cons_of_mem _ ho)) bs _ _ hbs hTail
      exact ⟨rfl, hRest⟩

/-- A part, a space and a text up to its closing parenthesis. -/
theorem ReadsBack.followed (ha : ReadsBack render legible a)
    (hb : Encloses renderOther legibleOther b) :
    Encloses (fun p : α × β => render p.1 ++ (" " ++ renderOther p.2))
      (fun p => legible p.1 && legibleOther p.2) (a, b) := by
  rintro ⟨a', b'⟩ r s hLegible h
  obtain ⟨ha', hb'⟩ := Bool.and_eq_true_iff.1 hLegible
  simp only [String.toList_append, List.append_assoc, space_append, List.cons_append] at h
  obtain ⟨rfl, hTail⟩ := ha.space ha' h
  obtain ⟨rfl, hRest⟩ := hb b' r s hb' hTail
  exact ⟨rfl, hRest⟩

/-- A number, a part and a last part that may be missing. -/
theorem ReadsBack.counted {n : Nat} {p : Option β} (ha : ReadsBack render legible a)
    (hp : ∀ b ∈ p.toList, ReadsBack renderOther legibleOther b) :
    Encloses
      (fun c : Nat × α × Option β =>
        toString c.1 ++ (" " ++ (render c.2.1 ++ spaced (c.2.2.toList.map renderOther))))
      (fun c => legible c.2.1 && c.2.2.toList.all legibleOther) (n, a, p) := by
  rintro ⟨n', a', p'⟩ r s hLegible h
  obtain ⟨ha', hp'⟩ := Bool.and_eq_true_iff.1 hLegible
  simp only [String.toList_append, List.append_assoc, space_append, List.cons_append] at h
  obtain ⟨rfl, hTail⟩ := number_append h
  obtain ⟨rfl, hEnd⟩ := ha a' _ _ ha' (stops_spaced _) (stops_spaced _) hTail
  obtain ⟨hSame, hRest⟩ := encloses_spaced hp p'.toList r s hp' hEnd
  obtain rfl : p = p' := by
    cases p <;> cases p' <;> simp_all
  exact ⟨rfl, hRest⟩

end Lists

/-! ## Keywords -/

/-- The words that stand before parentheses. -/
inductive Keyword where
  | subClassOf
  | equivalent
  | disjoint
  | disjointUnion
  | inverse
  | dataOneOf
  | dataComplement
  | dataCombined (connective : Connective)
  | restriction
  | complement
  | combined (connective : Connective)
  | oneOf
  | quantified (quantifier : Quantifier)
  | hasValue
  | hasSelf
  | cardinality (bound : Bound)
  | dataQuantified (quantifier : Quantifier)
  | dataHasValue
  | dataCardinality (bound : Bound)

namespace Keyword

def text : Keyword → String
  | subClassOf => "SubClassOf"
  | equivalent => "EquivalentClasses"
  | disjoint => "DisjointClasses"
  | disjointUnion => "DisjointUnion"
  | inverse => "ObjectInverseOf"
  | dataOneOf => "DataOneOf"
  | dataComplement => "DataComplementOf"
  | dataCombined connective => "Data" ++ connective.keyword
  | restriction => "DatatypeRestriction"
  | complement => "ObjectComplementOf"
  | combined connective => "Object" ++ connective.keyword
  | oneOf => "ObjectOneOf"
  | quantified quantifier => "Object" ++ quantifier.keyword
  | hasValue => "ObjectHasValue"
  | hasSelf => "ObjectHasSelf"
  | cardinality bound => "Object" ++ bound.keyword
  | dataQuantified quantifier => "Data" ++ quantifier.keyword
  | dataHasValue => "DataHasValue"
  | dataCardinality bound => "Data" ++ bound.keyword

def all : List Keyword :=
  [subClassOf, equivalent, disjoint, disjointUnion, inverse, dataOneOf, dataComplement,
    dataCombined .intersection, dataCombined .union, restriction, complement,
    combined .intersection, combined .union, oneOf, quantified .existential,
    quantified .universal, hasValue, hasSelf, cardinality .min, cardinality .max,
    cardinality .exact, dataQuantified .existential, dataQuantified .universal, dataHasValue,
    dataCardinality .min, dataCardinality .max, dataCardinality .exact]

theorem mem_all (k : Keyword) : k ∈ all := by
  cases k with
  | dataCombined connective => cases connective <;> simp [all]
  | combined connective => cases connective <;> simp [all]
  | quantified quantifier => cases quantifier <;> simp [all]
  | cardinality bound => cases bound <;> simp [all]
  | dataQuantified quantifier => cases quantifier <;> simp [all]
  | dataCardinality bound => cases bound <;> simp [all]
  | _ => simp [all]

/-- Different keywords are different words. -/
theorem text_inj {k l : Keyword} (h : k.text = l.text) : k = l := by
  have hNodup : (all.map text).Nodup := by
    simp [all, text, Connective.keyword, Quantifier.keyword, Bound.keyword]
  exact List.inj_on_of_nodup_map hNodup k.mem_all l.mem_all h

/-- No keyword has a parenthesis in it. -/
theorem ne_open_of_mem_text {k : Keyword} {c : Char} (h : c ∈ k.text.toList) : ¬ c = '(' := by
  have hAll : ∀ k ∈ all, '(' ∉ k.text.toList := by
    simp [all, text, Connective.keyword, Quantifier.keyword, Bound.keyword]
  rintro rfl
  exact hAll k k.mem_all h

/-- A keyword begins with a letter that begins nothing else. -/
theorem head_text (k : Keyword) : ∃ c cs, k.text.toList = c :: cs ∧ c ∈ ['S', 'E', 'D', 'O'] := by
  have hAll : ∀ k ∈ all, k.text.toList.head? ∈ ['S', 'E', 'D', 'O'].map some := by
    simp [all, text, Connective.keyword, Quantifier.keyword, Bound.keyword]
  obtain ⟨c, hLetter, hHead⟩ := List.mem_map.1 (hAll k k.mem_all)
  obtain ⟨cs, hText⟩ := List.head?_eq_some_iff.1 hHead.symm
  exact ⟨c, cs, hText, hLetter⟩

end Keyword

/-! ## Frames -/

/-- A keyword and what stands in parentheses after it. -/
def framed (k : Keyword) (body : String) : String := k.text ++ "(" ++ body ++ ")"

theorem toList_framed_append (k : Keyword) (body : String) :
    (framed k body).toList ++ r = k.text.toList ++ '(' :: (body.toList ++ ')' :: r) := by
  simp [framed]

theorem toList_render_append (iri : Iri) :
    iri.render.toList ++ r = '<' :: (iri.text.toList ++ '>' :: r) := by
  simp [Iri.render]

/-- The keyword can be read back, and the parentheses open at the same place. -/
theorem framed_append {k l : Keyword} {v w : String}
    (h : (framed k v).toList ++ r = (framed l w).toList ++ s) :
    k = l ∧ v.toList ++ ')' :: r = w.toList ++ ')' :: s := by
  rw [toList_framed_append, toList_framed_append] at h
  obtain ⟨hText, hBody⟩ := append_inj_of_stop (p := (· = '('))
    (fun _ => Keyword.ne_open_of_mem_text) (fun _ => Keyword.ne_open_of_mem_text) (by simp)
    (by simp) h
  exact ⟨Keyword.text_inj (String.toList_inj.1 hText), (List.cons.inj hBody).2⟩

theorem framed_append_ne (k : Keyword) (v : String) (iri : Iri) :
    (framed k v).toList ++ r ≠ iri.render.toList ++ s := by
  obtain ⟨c, cs, hText, hLetter⟩ := k.head_text
  intro h
  rw [toList_framed_append, toList_render_append, hText] at h
  obtain rfl : c = '<' := (List.cons.inj h).1
  exact absurd hLetter (by decide)

/-- A rendering that writes a name or puts a frame around what it writes. -/
structure Frames {α : Type} (render : α → String) (frame? : α → Option (Keyword × String)) :
    Prop where
  framed : ∀ a k body, frame? a = some (k, body) → render a = framed k body
  named : ∀ a, frame? a = none → ∃ iri : Iri, render a = iri.render

namespace Frames

variable {α : Type} {render : α → String} {frame? : α → Option (Keyword × String)} {a b : α}
  {k : Keyword} {body : String}

theorem opens (hFrames : Frames render frame?) : Opens render := by
  intro a r
  cases hFrame : frame? a with
  | none =>
    obtain ⟨iri, hRender⟩ := hFrames.named a hFrame
    rw [hRender, toList_render_append, stops_cons]
    decide
  | some f =>
    obtain ⟨c, cs, hText, hLetter⟩ := f.1.head_text
    rw [hFrames.framed a f.1 f.2 hFrame, toList_framed_append, hText, List.cons_append, stops_cons]
    rintro (rfl | rfl)
    · exact absurd hLetter (by decide)
    · exact absurd hLetter (by decide)

/-- What begins a text like something in a frame has the same frame. -/
theorem append_of_some (hFrames : Frames render frame?) (ha : frame? a = some (k, body))
    (h : (render a).toList ++ r = (render b).toList ++ s) :
    ∃ body', frame? b = some (k, body') ∧ body.toList ++ ')' :: r = body'.toList ++ ')' :: s := by
  rw [hFrames.framed a k body ha] at h
  cases hb : frame? b with
  | none =>
    obtain ⟨iri, hRender⟩ := hFrames.named b hb
    rw [hRender] at h
    exact absurd h (framed_append_ne k body iri)
  | some f =>
    rw [hFrames.framed b f.1 f.2 hb] at h
    obtain ⟨rfl, hBody⟩ := framed_append h
    exact ⟨f.2, rfl, hBody⟩

/-- What begins a text like a name has no frame. -/
theorem append_of_none (hFrames : Frames render frame?) (ha : frame? a = none)
    (h : (render a).toList ++ r = (render b).toList ++ s) : frame? b = none := by
  cases hb : frame? b with
  | none => rfl
  | some f =>
    obtain ⟨body, hFrame, -⟩ := hFrames.append_of_some hb h.symm
    rw [ha] at hFrame
    cases hFrame

/-- What a constructor puts in a frame can be read back when the text in the frame can be, provided
that the frames with its keyword come from this constructor only. -/
theorem readsBack {β : Type} {legible : α → Bool} {text : β → String} {legibleParts : β → Bool}
    {x : β} (hFrames : Frames render frame?) (hx : Encloses text legibleParts x) (build : β → α)
    (hFrame : ∀ x, frame? (build x) = some (k, text x))
    (hLegible : ∀ x, legible (build x) = legibleParts x)
    (hOnly : ∀ b body, frame? b = some (k, body) → ∃ x, b = build x) :
    ReadsBack render legible (build x) := by
  intro b r s hb _ _ h
  obtain ⟨body, hSame, hBody⟩ := hFrames.append_of_some (hFrame x) h
  obtain ⟨y, rfl⟩ := hOnly b body hSame
  rw [hFrame] at hSame
  cases hSame
  rw [hLegible] at hb
  obtain ⟨rfl, hRest⟩ := hx y r s hb hBody
  exact ⟨rfl, hRest⟩

end Frames

end OntoFold
