import OntoFold.Order.Key
import OntoFold.Term.Basic

/-!
# The order of terms

The keys of terms. Constructors are ranked as they are declared, a name compares as its
text, and a list of operands precedes its extensions. Every type of terms is `Keyed`, which
gives it a total order and decidable equality.
-/

namespace OntoFold

/-! ## Atoms -/

instance : Keyed Nat where
  orderKey n := [.number n]
  orderKey_append h := by simpa using h

instance : Keyed String where
  orderKey s := [.text s]
  orderKey_append h := by simpa using h

instance : Keyed Iri where
  orderKey iri := [.text iri.text]
  orderKey_append {a b r s} h := by
    cases a; cases b; simpa using h

namespace ObjectProperty

def key : ObjectProperty → List Token
  | .named iri => .number 0 :: orderKey iri
  | .inverse iri => .number 1 :: orderKey iri

instance : Keyed ObjectProperty where
  orderKey := key
  orderKey_append {a b r s} h := by
    cases a <;> cases b <;> simp_all [key, Keyed.orderKey_append_iff]

end ObjectProperty

namespace Individual

def key : Individual → List Token
  | .named iri => .number 0 :: orderKey iri
  | .anonymous label => .number 1 :: orderKey label

instance : Keyed Individual where
  orderKey := key
  orderKey_append {a b r s} h := by
    cases a <;> cases b <;> simp_all [key, Keyed.orderKey_append_iff]

end Individual

namespace Literal

def key : Literal → List Token
  | .plain value => .number 0 :: orderKey value
  | .tagged value language => .number 1 :: (orderKey value ++ orderKey language)
  | .typed value datatype => .number 2 :: (orderKey value ++ orderKey datatype)

instance : Keyed Literal where
  orderKey := key
  orderKey_append {a b r s} h := by
    cases a <;> cases b <;> simp_all [key, Keyed.orderKey_append_iff]

end Literal

namespace Facet

def key (f : Facet) : List Token := orderKey f.iri ++ orderKey f.value

instance : Keyed Facet where
  orderKey := key
  orderKey_append {a b r s} h := by
    cases a; cases b; simp_all [key, Keyed.orderKey_append_iff]

end Facet

instance : Keyed Connective where
  orderKey
    | .intersection => [.number 0]
    | .union => [.number 1]
  orderKey_append {a b r s} h := by
    cases a <;> cases b <;> simp_all

instance : Keyed Quantifier where
  orderKey
    | .existential => [.number 0]
    | .universal => [.number 1]
  orderKey_append {a b r s} h := by
    cases a <;> cases b <;> simp_all

instance : Keyed Bound where
  orderKey
    | .min => [.number 0]
    | .max => [.number 1]
    | .exact => [.number 2]
  orderKey_append {a b r s} h := by
    cases a <;> cases b <;> simp_all

instance {α : Type u} [Keyed α] : Keyed (List α) where
  orderKey := listKey orderKey
  orderKey_append h := listKey_append h

instance {α : Type u} [Keyed α] : Keyed (Option α) where
  orderKey := optionKey orderKey
  orderKey_append h := optionKey_append h

/-! ## Data ranges -/

namespace DataRange

mutual

def key : DataRange → List Token
  | .datatype iri => .number 0 :: orderKey iri
  | .oneOf values => .number 1 :: orderKey values
  | .complement range => .number 2 :: key range
  | .combined connective ranges => .number 3 :: (orderKey connective ++ keys ranges)
  | .restriction base facets => .number 4 :: (orderKey base ++ orderKey facets)

def keys : List DataRange → List Token
  | [] => [.number 0]
  | range :: ranges => .number 1 :: (key range ++ keys ranges)

end

mutual

theorem key_append {r s : List Token} :
    ∀ (a b : DataRange), key a ++ r = key b ++ s → a = b ∧ r = s
  | .datatype _, b, h => by
    cases b <;> simp_all [key, Keyed.orderKey_append_iff]
  | .oneOf _, b, h => by
    cases b <;> simp_all [key, Keyed.orderKey_append_iff]
  | .complement a, b, h => by
    cases b <;> simp [key] at h
    obtain ⟨rfl, rfl⟩ := key_append a _ h
    exact ⟨rfl, rfl⟩
  | .combined _ as, b, h => by
    cases b <;> simp [key, Keyed.orderKey_append_iff] at h
    obtain ⟨rfl, h⟩ := h
    obtain ⟨rfl, rfl⟩ := keys_append as _ h
    exact ⟨rfl, rfl⟩
  | .restriction _ _, b, h => by
    cases b <;> simp_all [key, Keyed.orderKey_append_iff]

theorem keys_append {r s : List Token} :
    ∀ (as bs : List DataRange), keys as ++ r = keys bs ++ s → as = bs ∧ r = s
  | [], bs, h => by
    cases bs <;> simp_all [keys]
  | a :: as, bs, h => by
    cases bs <;> simp [keys] at h
    obtain ⟨rfl, hTail⟩ := key_append a _ h
    obtain ⟨rfl, rfl⟩ := keys_append as _ hTail
    exact ⟨rfl, rfl⟩

end

instance : Keyed DataRange where
  orderKey := key
  orderKey_append h := key_append _ _ h

end DataRange

/-! ## Class expressions -/

namespace ClassExpression

mutual

def key : ClassExpression → List Token
  | .named iri => .number 0 :: orderKey iri
  | .complement operand => .number 1 :: key operand
  | .combined connective operands => .number 2 :: (orderKey connective ++ keys operands)
  | .oneOf individuals => .number 3 :: orderKey individuals
  | .quantified quantifier property filler =>
    .number 4 :: (orderKey quantifier ++ (orderKey property ++ key filler))
  | .hasValue property individual => .number 5 :: (orderKey property ++ orderKey individual)
  | .hasSelf property => .number 6 :: orderKey property
  | .cardinality bound count property filler =>
    .number 7 :: (orderKey bound ++ (orderKey count ++ (orderKey property ++ fillerKey filler)))
  | .dataQuantified quantifier property range =>
    .number 8 :: (orderKey quantifier ++ (orderKey property ++ orderKey range))
  | .dataHasValue property value => .number 9 :: (orderKey property ++ orderKey value)
  | .dataCardinality bound count property range =>
    .number 10 :: (orderKey bound ++ (orderKey count ++ (orderKey property ++ orderKey range)))

def keys : List ClassExpression → List Token
  | [] => [.number 0]
  | operand :: operands => .number 1 :: (key operand ++ keys operands)

def fillerKey : Option ClassExpression → List Token
  | none => [.number 0]
  | some filler => .number 1 :: key filler

end

mutual

theorem key_append {r s : List Token} :
    ∀ (a b : ClassExpression), key a ++ r = key b ++ s → a = b ∧ r = s
  | .named _, b, h => by
    cases b <;> simp_all [key, Keyed.orderKey_append_iff]
  | .complement a, b, h => by
    cases b <;> simp [key] at h
    obtain ⟨rfl, rfl⟩ := key_append a _ h
    exact ⟨rfl, rfl⟩
  | .combined _ as, b, h => by
    cases b <;> simp [key, Keyed.orderKey_append_iff] at h
    obtain ⟨rfl, h⟩ := h
    obtain ⟨rfl, rfl⟩ := keys_append as _ h
    exact ⟨rfl, rfl⟩
  | .oneOf _, b, h => by
    cases b <;> simp_all [key, Keyed.orderKey_append_iff]
  | .quantified _ _ a, b, h => by
    cases b <;> simp [key, Keyed.orderKey_append_iff] at h
    obtain ⟨rfl, rfl, h⟩ := h
    obtain ⟨rfl, rfl⟩ := key_append a _ h
    exact ⟨rfl, rfl⟩
  | .hasValue _ _, b, h => by
    cases b <;> simp_all [key, Keyed.orderKey_append_iff]
  | .hasSelf _, b, h => by
    cases b <;> simp_all [key, Keyed.orderKey_append_iff]
  | .cardinality _ _ _ filler, b, h => by
    cases b <;> simp [key, Keyed.orderKey_append_iff] at h
    obtain ⟨rfl, rfl, rfl, h⟩ := h
    obtain ⟨rfl, rfl⟩ := fillerKey_append filler _ h
    exact ⟨rfl, rfl⟩
  | .dataQuantified _ _ _, b, h => by
    cases b <;> simp_all [key, Keyed.orderKey_append_iff]
  | .dataHasValue _ _, b, h => by
    cases b <;> simp_all [key, Keyed.orderKey_append_iff]
  | .dataCardinality _ _ _ _, b, h => by
    cases b <;> simp_all [key, Keyed.orderKey_append_iff]

theorem keys_append {r s : List Token} :
    ∀ (as bs : List ClassExpression), keys as ++ r = keys bs ++ s → as = bs ∧ r = s
  | [], bs, h => by
    cases bs <;> simp_all [keys]
  | a :: as, bs, h => by
    cases bs <;> simp [keys] at h
    obtain ⟨rfl, hTail⟩ := key_append a _ h
    obtain ⟨rfl, rfl⟩ := keys_append as _ hTail
    exact ⟨rfl, rfl⟩

theorem fillerKey_append {r s : List Token} :
    ∀ (x y : Option ClassExpression), fillerKey x ++ r = fillerKey y ++ s → x = y ∧ r = s
  | none, y, h => by
    cases y <;> simp_all [fillerKey]
  | some a, y, h => by
    cases y <;> simp [fillerKey] at h
    obtain ⟨rfl, rfl⟩ := key_append a _ h
    exact ⟨rfl, rfl⟩

end

instance : Keyed ClassExpression where
  orderKey := key
  orderKey_append h := key_append _ _ h

end ClassExpression

/-! ## Terms -/

namespace Term

def key : Term → List Token
  | .classExpression e => .number 0 :: orderKey e
  | .objectProperty p => .number 1 :: orderKey p
  | .dataProperty p => .number 2 :: orderKey p
  | .individual i => .number 3 :: orderKey i
  | .literal l => .number 4 :: orderKey l
  | .dataRange d => .number 5 :: orderKey d
  | .facet f => .number 6 :: orderKey f

instance : Keyed Term where
  orderKey := key
  orderKey_append {a b r s} h := by
    cases a <;> cases b <;> simp_all [key, Keyed.orderKey_append_iff]

end Term

end OntoFold
