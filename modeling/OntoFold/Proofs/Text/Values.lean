import OntoFold.Proofs.Text.Delimiters

/-!
# Reading names, values and data ranges back

A name ends at its bracket and a quoted value at its quote; labels of individuals and languages end
where a space or a parenthesis follows. Data ranges are built from them under keywords, and are read
back by induction over the range.

* `Iri.readsBack`, `ObjectProperty.readsBack`, `Individual.readsBack`: names.
* `Literal.readsBack`: the three forms of literals, whatever their values contain.
* `DataRange.readsBack`: data ranges.
-/

namespace OntoFold

variable {r s : List Char}

/-! ## Names, properties and values -/

/-- A text without spaces and closing parentheses. -/
def isUnbroken (text : String) : Bool := text.toList.all fun c => c ≠ ' ' ∧ c ≠ ')'

/-- A text without spaces and closing parentheses can be read back where a part stops. -/
theorem unbroken_append {v w : String} (hv : isUnbroken v = true) (hw : isUnbroken w = true)
    (hr : Stops r) (hs : Stops s) (h : v.toList ++ r = w.toList ++ s) : v = w ∧ r = s := by
  have hGoes : ∀ {t : String}, isUnbroken t = true → ∀ c ∈ t.toList, ¬ (c = ' ' ∨ c = ')') := by
    intro t ht c hc
    have hBoth := of_decide_eq_true (List.all_eq_true.1 ht c hc)
    exact not_or.2 hBoth
  obtain ⟨hText, hRest⟩ := append_inj_of_stop (hGoes hv) (hGoes hw) hr hs h
  exact ⟨String.toList_inj.1 hText, hRest⟩

namespace Iri

/-- The name does not contain the bracket that closes names. -/
def isLegible (iri : Iri) : Bool := decide ('>' ∉ iri.text.toList)

theorem readsBack {a : Iri} (ha : a.isLegible = true) : ReadsBack render isLegible a := by
  intro b r s hb _ _ h
  have hClosed : ∀ {i : Iri}, i.isLegible = true → ∀ c ∈ i.text.toList, ¬ c = '>' := by
    rintro i hi c hc rfl
    exact of_decide_eq_true hi hc
  rw [toList_render_append, toList_render_append] at h
  obtain ⟨hText, hRest⟩ := append_inj_of_stop (p := (· = '>')) (hClosed ha) (hClosed hb) (by simp)
    (by simp) (List.cons.inj h).2
  obtain ⟨text⟩ := a
  obtain ⟨text'⟩ := b
  exact ⟨congrArg Iri.mk (String.toList_inj.1 hText), (List.cons.inj hRest).2⟩

end Iri

/-- What a constructor writes as a name can be read back, provided that nothing else is written as a
name. -/
theorem Frames.readsBack_name {α : Type} {render : α → String}
    {frame? : α → Option (Keyword × String)} {legible : α → Bool} {iri : Iri}
    (hFrames : Frames render frame?) (build : Iri → α) (hFrame : ∀ n, frame? (build n) = none)
    (hRender : ∀ n, render (build n) = n.render)
    (hLegible : ∀ n, legible (build n) = n.isLegible)
    (hOnly : ∀ b, frame? b = none → ∃ n, b = build n) (h : iri.isLegible = true) :
    ReadsBack render legible (build iri) := by
  intro b r s hb hr hs hSame
  obtain ⟨n, rfl⟩ := hOnly b (hFrames.append_of_none (hFrame iri) hSame)
  rw [hRender, hRender] at hSame
  rw [hLegible] at hb
  obtain ⟨rfl, hRest⟩ := Iri.readsBack h n r s hb hr hs hSame
  exact ⟨rfl, hRest⟩

namespace ObjectProperty

def isLegible (p : ObjectProperty) : Bool := p.iri.isLegible

def frame? : ObjectProperty → Option (Keyword × String)
  | .named _ => none
  | .inverse iri => some (.inverse, iri.render)

theorem frames : Frames render frame? where
  framed := by
    intro p k body h
    cases p with
    | named iri => cases h
    | inverse iri =>
      cases h
      rfl
  named := by
    intro p h
    cases p with
    | named iri => exact ⟨iri, rfl⟩
    | inverse iri => cases h

theorem readsBack {a : ObjectProperty} (ha : a.isLegible = true) :
    ReadsBack render isLegible a := by
  cases a with
  | named iri =>
    refine frames.readsBack_name .named (fun _ => rfl) (fun _ => rfl) (fun _ => rfl) ?_ ha
    intro b h
    cases b with
    | named n => exact ⟨n, rfl⟩
    | inverse n => cases h
  | inverse iri =>
    refine frames.readsBack (Iri.readsBack ha).encloses .inverse (fun _ => rfl) (fun _ => rfl) ?_
    intro b body h
    cases b with
    | named n => cases h
    | inverse n => exact ⟨n, rfl⟩

end ObjectProperty

namespace Individual

def isLegible : Individual → Bool
  | .named iri => iri.isLegible
  | .anonymous label => isUnbroken label

theorem opens : Opens render := by
  intro a r
  cases a <;> simp [render, Iri.render]

theorem readsBack {a : Individual} (ha : a.isLegible = true) : ReadsBack render isLegible a := by
  intro b r s hb hr hs h
  cases a with
  | named iri =>
    cases b with
    | named iri' =>
      obtain ⟨rfl, hRest⟩ := Iri.readsBack ha iri' r s hb hr hs h
      exact ⟨rfl, hRest⟩
    | anonymous label' => simp [render, Iri.render] at h
  | anonymous label =>
    cases b with
    | named iri' => simp [render, Iri.render] at h
    | anonymous label' =>
      simp only [render, String.toList_append, List.append_assoc, List.append_cancel_left_eq] at h
      obtain ⟨rfl, hRest⟩ := unbroken_append ha hb hr hs h
      exact ⟨rfl, hRest⟩

end Individual

namespace Literal

/-- The value of a literal may be any text. -/
def isLegible : Literal → Bool
  | .plain _ => true
  | .tagged _ language => isUnbroken language
  | .typed _ datatype => datatype.isLegible

def value : Literal → String
  | .plain value => value
  | .tagged value _ => value
  | .typed value _ => value

/-- What follows the value of a literal. -/
def suffix : Literal → String
  | .plain _ => ""
  | .tagged _ language => "@" ++ language
  | .typed _ datatype => "^^" ++ datatype.render

theorem render_eq (l : Literal) : l.render = Text.quoted l.value ++ l.suffix := by
  cases l <;> simp [render, value, suffix, String.append_assoc]

theorem opens : Opens render := by
  intro a r
  simp [render_eq, Text.quoted]

theorem readsBack {a : Literal} (ha : a.isLegible = true) : ReadsBack render isLegible a := by
  intro b r s hb hr hs h
  rw [render_eq, render_eq, String.toList_append, String.toList_append, List.append_assoc,
    List.append_assoc] at h
  obtain ⟨hValue, hSuffix⟩ := Text.quoted_append h
  -- A suffix begins neither like a place where parts stop nor like a suffix of another form.
  cases a with
  | plain value =>
    cases b with
    | plain value' =>
      obtain rfl : value = value' := hValue
      exact ⟨rfl, hSuffix⟩
    | _ =>
      obtain rfl : r = _ := hSuffix
      simp [suffix] at hr
  | tagged value language =>
    cases b with
    | plain value' =>
      obtain rfl : _ = s := hSuffix
      simp [suffix] at hs
    | tagged value' language' =>
      obtain rfl : value = value' := hValue
      simp only [suffix, String.toList_append, List.append_assoc, List.append_cancel_left_eq]
        at hSuffix
      obtain ⟨rfl, hRest⟩ := unbroken_append ha hb hr hs hSuffix
      exact ⟨rfl, hRest⟩
    | typed value' datatype' => simp [suffix] at hSuffix
  | typed value datatype =>
    cases b with
    | plain value' =>
      obtain rfl : _ = s := hSuffix
      simp [suffix] at hs
    | tagged value' language' => simp [suffix] at hSuffix
    | typed value' datatype' =>
      obtain rfl : value = value' := hValue
      simp only [suffix, String.toList_append, List.append_assoc, List.append_cancel_left_eq]
        at hSuffix
      obtain ⟨rfl, hRest⟩ := Iri.readsBack ha datatype' r s hb hr hs hSuffix
      exact ⟨rfl, hRest⟩

end Literal

namespace Facet

def isLegible (f : Facet) : Bool := f.iri.isLegible && f.value.isLegible

theorem opens : Opens render := by
  intro a r
  simp [render, Iri.render]

theorem readsBack {a : Facet} (ha : a.isLegible = true) : ReadsBack render isLegible a := by
  intro b r s hb hr hs h
  obtain ⟨iri, value⟩ := a
  obtain ⟨iri', value'⟩ := b
  obtain ⟨hIri, hValue⟩ := Bool.and_eq_true_iff.1 ha
  obtain ⟨hIri', hValue'⟩ := Bool.and_eq_true_iff.1 hb
  simp only [render, String.toList_append, List.append_assoc, List.cons_append, space_append] at h
  obtain ⟨rfl, hTail⟩ := (Iri.readsBack hIri).space hIri' h
  obtain ⟨rfl, hRest⟩ := Literal.readsBack hValue value' r s hValue' hr hs hTail
  exact ⟨rfl, hRest⟩

end Facet

/-! ## Data ranges -/

namespace DataRange

mutual

def isLegible : DataRange → Bool
  | .datatype iri => iri.isLegible
  | .oneOf values => values.all Literal.isLegible
  | .complement range => isLegible range
  | .combined _ ranges => allLegible ranges
  | .restriction base facets => base.isLegible && facets.all Facet.isLegible

def allLegible : List DataRange → Bool
  | [] => true
  | range :: ranges => isLegible range && allLegible ranges

end

theorem allLegible_eq (ranges : List DataRange) : allLegible ranges = ranges.all isLegible := by
  induction ranges with
  | nil => rfl
  | cons range ranges ih => rw [allLegible, List.all_cons, ih]

theorem renderAll_eq (ranges : List DataRange) : renderAll ranges = ranges.map render := by
  induction ranges with
  | nil => rfl
  | cons range ranges ih => rw [renderAll, List.map_cons, ih]

def frame? : DataRange → Option (Keyword × String)
  | .datatype _ => none
  | .oneOf values => some (.dataOneOf, separated (values.map Literal.render))
  | .complement range => some (.dataComplement, range.render)
  | .combined connective ranges =>
    some (.dataCombined connective, separated (ranges.map render))
  | .restriction base facets =>
    some (.restriction, base.render ++ (" " ++ separated (facets.map Facet.render)))

theorem frames : Frames render frame? where
  framed := by
    intro range k body h
    cases range with
    | datatype iri => cases h
    | combined connective ranges =>
      cases h
      rw [← renderAll_eq]
      rfl
    | _ =>
      cases h
      simp only [framed, ← String.append_assoc]
      rfl
  named := by
    intro range h
    cases range with
    | datatype iri => exact ⟨iri, rfl⟩
    | _ => cases h

/-- A data range of the form that a keyword stands for. -/
def IsWritten : Keyword → DataRange → Prop
  | .dataOneOf, range => ∃ values, range = .oneOf values
  | .dataComplement, range => ∃ operand, range = .complement operand
  | .dataCombined connective, range => ∃ ranges, range = .combined connective ranges
  | .restriction, range => ∃ x : Iri × List Facet, range = .restriction x.1 x.2
  | _, _ => False

theorem isWritten {range : DataRange} {k : Keyword} {body : String}
    (h : range.frame? = some (k, body)) : IsWritten k range := by
  cases range with
  | datatype iri => cases h
  | oneOf values =>
    cases h
    exact ⟨values, rfl⟩
  | complement operand =>
    cases h
    exact ⟨operand, rfl⟩
  | combined connective ranges =>
    cases h
    exact ⟨ranges, rfl⟩
  | restriction base facets =>
    cases h
    exact ⟨(base, facets), rfl⟩

mutual

theorem readsBack : ∀ a : DataRange, a.isLegible = true → ReadsBack render isLegible a
  | .datatype iri, ha => by
    refine frames.readsBack_name .datatype (fun _ => rfl) (fun _ => rfl) (fun _ => rfl) ?_ ha
    intro b h
    cases b with
    | datatype n => exact ⟨n, rfl⟩
    | _ => cases h
  | .oneOf values, ha => by
    have hValues := encloses_separated Literal.opens
      fun v hv => Literal.readsBack (List.all_eq_true.1 ha v hv)
    exact frames.readsBack hValues .oneOf (fun _ => rfl) (fun _ => rfl) (fun _ _ => isWritten)
  | .complement range, ha => by
    have hRange := (readsBack range ha).encloses
    exact frames.readsBack hRange .complement (fun _ => rfl) (fun _ => rfl) (fun _ _ => isWritten)
  | .combined connective ranges, ha => by
    have hRanges := encloses_separated frames.opens (allReadBack ranges ha)
    exact frames.readsBack hRanges (.combined connective) (fun _ => rfl) allLegible_eq
      (fun _ _ => isWritten)
  | .restriction base facets, ha => by
    obtain ⟨hBase, hFacets⟩ := Bool.and_eq_true_iff.1 ha
    have hParts := (Iri.readsBack hBase).followed (encloses_separated Facet.opens
      fun f hf => Facet.readsBack (List.all_eq_true.1 hFacets f hf))
    exact frames.readsBack hParts (fun x => .restriction x.1 x.2) (fun _ => rfl) (fun _ => rfl)
      (fun _ _ => isWritten)

theorem allReadBack : ∀ ranges : List DataRange, allLegible ranges = true →
    ∀ range ∈ ranges, ReadsBack render isLegible range
  | [], _, _, hMem => absurd hMem List.not_mem_nil
  | a :: ranges, hAll, range, hMem => by
    obtain ⟨ha, hRanges⟩ := Bool.and_eq_true_iff.1 hAll
    rcases List.mem_cons.1 hMem with hFirst | hRest
    · rw [hFirst]
      exact readsBack a ha
    · exact allReadBack ranges hRanges range hRest

end

end DataRange

end OntoFold
