import OntoFold.Text.Quoted

/-!
# Reading quoted texts back

A quoted text shows where it ends, and the text inside it can be read back: every escaped character
shows its own end and which character it stands for, and none begins like the closing quote.

* `append_inj_of_stop`: where texts without certain characters end.
* `Text.escaped_append`: reading one escaped character back.
* `Text.quoted_append`: reading a quoted text back.
-/

namespace OntoFold

variable {r s : List Char}

/-- Two texts without certain characters, each followed by such a character or by nothing, end at
the same place. -/
theorem append_inj_of_stop {p : Char → Prop} {xs ys : List Char} (hxs : ∀ c ∈ xs, ¬ p c)
    (hys : ∀ c ∈ ys, ¬ p c) (hr : ∀ c ∈ r.head?, p c) (hs : ∀ c ∈ s.head?, p c)
    (h : xs ++ r = ys ++ s) : xs = ys ∧ r = s := by
  induction xs generalizing ys with
  | nil =>
    cases ys with
    | nil => exact ⟨rfl, h⟩
    | cons y ys =>
      obtain rfl : r = y :: (ys ++ s) := h
      exact absurd (hr y rfl) (hys y List.mem_cons_self)
  | cons x xs ih =>
    cases ys with
    | nil =>
      obtain rfl : x :: (xs ++ r) = s := h
      exact absurd (hs x rfl) (hxs x List.mem_cons_self)
    | cons y ys =>
      obtain ⟨rfl, hTail⟩ := List.cons.inj h
      obtain ⟨rfl, hRest⟩ := ih (fun c hc => hxs c (List.mem_cons_of_mem _ hc))
        (fun c hc => hys c (List.mem_cons_of_mem _ hc)) hTail
      exact ⟨rfl, hRest⟩

namespace Text

variable {c d : Char} {m n : Nat}

/-! ## Numbers -/

theorem digitChar_inj (hm : m < 16) (hn : n < 16) (h : Nat.digitChar m = Nat.digitChar n) :
    m = n := by
  have hAll : ∀ m < 16, ∀ n < 16, Nat.digitChar m = Nat.digitChar n → m = n := by decide
  exact hAll m hm n hn h

/-- A number can be read off its hexadecimal digits. -/
theorem hexDigits_inj (h : hexDigits m = hexDigits n) : m = n := by
  induction m using Nat.strongRecOn generalizing n with
  | ind m ih =>
    unfold hexDigits at h ih
    rw [Nat.toDigits_eq_if (by decide), Nat.toDigits_eq_if (n := n) (by decide)] at h
    have hLong : ∀ k, 0 < (Nat.toDigits 16 k).length := fun k => Nat.length_toDigits_pos
    split at h
    · next hm =>
      split at h
      · next hn => exact digitChar_inj hm hn (List.cons.inj h).1
      · have hLength := congrArg List.length h
        have hPos := hLong (n / 16)
        simp only [List.length_append, List.length_singleton] at hLength
        omega
    · split at h
      · have hLength := congrArg List.length h
        have hPos := hLong (m / 16)
        simp only [List.length_append, List.length_singleton] at hLength
        omega
      · obtain ⟨hFront, hLast⟩ := List.append_inj' h rfl
        have hQuotient := ih (m / 16) (by omega) hFront
        have hRemainder := digitChar_inj (Nat.mod_lt m (by decide)) (Nat.mod_lt n (by decide))
          (List.cons.inj hLast).1
        omega

theorem mem_hexDigits (h : c ∈ hexDigits n) : ∃ k < 16, c = Nat.digitChar k := by
  induction n using Nat.strongRecOn with
  | ind n ih =>
    unfold hexDigits at h ih
    rw [Nat.toDigits_eq_if (by decide)] at h
    split at h
    · next hn => exact ⟨n, hn, List.mem_singleton.1 h⟩
    · rcases List.mem_append.1 h with hFront | hLast
      · exact ih (n / 16) (by omega) hFront
      · exact ⟨n % 16, Nat.mod_lt n (by decide), List.mem_singleton.1 hLast⟩

/-- The brace that closes a code point is not one of its digits. -/
theorem ne_brace_of_mem_hexDigits (h : c ∈ hexDigits n) : ¬ c = '\x7d' := by
  obtain ⟨k, hk, rfl⟩ := mem_hexDigits h
  have hAll : ∀ k < 16, ¬ Nat.digitChar k = '\x7d' := by decide
  exact hAll k hk

/-! ## Escaped characters -/

/-- The characters with an escape of one letter, and the letter. -/
def letterEscapes : List (Char × Char) :=
  [('"', '"'), ('\\', '\\'), ('\n', 'n'), ('\r', 'r'), ('\t', 't'), ('\x00', '0')]

theorem letterEscapes_inj {x : Char} (hc : (c, x) ∈ letterEscapes) (hd : (d, x) ∈ letterEscapes) :
    c = d := by
  have hAll : ∀ p ∈ letterEscapes, ∀ q ∈ letterEscapes, p.2 = q.2 → p.1 = q.1 := by decide
  exact hAll _ hc _ hd rfl

/-- The letter that begins a code point is not the letter of an escape. -/
theorem not_mem_letterEscapes : (c, 'u') ∉ letterEscapes := by
  have hAll : ∀ p ∈ letterEscapes, p.2 ≠ 'u' := by decide
  exact fun h => hAll _ h rfl

/-- The three forms of an escaped character: an escape of one letter, the character itself and its
code point. -/
theorem escaped_cases (c : Char) :
    (∃ x, (c, x) ∈ letterEscapes ∧ escaped c = ['\\', x]) ∨
      (escaped c = [c] ∧ c ≠ '"' ∧ c ≠ '\\') ∨
      escaped c = '\\' :: 'u' :: '\x7b' :: (hexDigits c.toNat ++ ['\x7d']) := by
  unfold escaped
  split
  · next h => exact Or.inl ⟨'"', by simp [letterEscapes, h], rfl⟩
  next hQuote =>
  split
  · next h => exact Or.inl ⟨'\\', by simp [letterEscapes, h], rfl⟩
  next hBackslash =>
  split
  · next h => exact Or.inl ⟨'n', by simp [letterEscapes, h], rfl⟩
  split
  · next h => exact Or.inl ⟨'r', by simp [letterEscapes, h], rfl⟩
  split
  · next h => exact Or.inl ⟨'t', by simp [letterEscapes, h], rfl⟩
  split
  · next h =>
    obtain rfl : c = '\x00' := Char.toNat_inj.1 h
    exact Or.inl ⟨'0', by simp [letterEscapes], rfl⟩
  split
  · exact Or.inr (Or.inl ⟨rfl, hQuote, hBackslash⟩)
  · exact Or.inr (Or.inr rfl)

/-- An escaped character can be read back, whatever follows it. -/
theorem escaped_append (h : escaped c ++ r = escaped d ++ s) : c = d ∧ r = s := by
  rcases escaped_cases c with ⟨x, hx, hc⟩ | ⟨hc, -, hcBackslash⟩ | hc <;>
    rcases escaped_cases d with ⟨y, hy, hd⟩ | ⟨hd, -, hdBackslash⟩ | hd <;>
    rw [hc, hd] at h
  · obtain ⟨-, hTail⟩ := List.cons.inj h
    obtain ⟨rfl, hRest⟩ := List.cons.inj hTail
    exact ⟨letterEscapes_inj hx hy, hRest⟩
  · exact absurd (List.cons.inj h).1.symm hdBackslash
  · obtain ⟨-, hTail⟩ := List.cons.inj h
    obtain ⟨rfl, -⟩ := List.cons.inj hTail
    exact absurd hx not_mem_letterEscapes
  · exact absurd (List.cons.inj h).1 hcBackslash
  · exact List.cons.inj h
  · exact absurd (List.cons.inj h).1 hcBackslash
  · obtain ⟨-, hTail⟩ := List.cons.inj h
    obtain ⟨rfl, -⟩ := List.cons.inj hTail
    exact absurd hy not_mem_letterEscapes
  · exact absurd (List.cons.inj h).1.symm hdBackslash
  · simp only [List.cons_append, List.append_assoc, List.cons.injEq, true_and] at h
    obtain ⟨hDigits, hRest⟩ := append_inj_of_stop (p := (· = '\x7d'))
      (fun _ => ne_brace_of_mem_hexDigits) (fun _ => ne_brace_of_mem_hexDigits) (by simp) (by simp)
      h
    exact ⟨Char.toNat_inj.1 (hexDigits_inj hDigits), (List.cons.inj hRest).2⟩

/-- No escaped character begins like the closing quote. -/
theorem escaped_append_ne_quote : escaped c ++ r ≠ '"' :: s := by
  intro h
  rcases escaped_cases c with ⟨x, -, hc⟩ | ⟨hc, hQuote, -⟩ | hc <;> rw [hc] at h
  · exact absurd (List.cons.inj h).1 (by decide)
  · exact hQuote (List.cons.inj h).1
  · exact absurd (List.cons.inj h).1 (by decide)

/-! ## Quoted texts -/

theorem flatMap_escaped_append {cs ds : List Char}
    (h : cs.flatMap escaped ++ '"' :: r = ds.flatMap escaped ++ '"' :: s) : cs = ds ∧ r = s := by
  induction cs generalizing ds with
  | nil =>
    cases ds with
    | nil => exact ⟨rfl, (List.cons.inj h).2⟩
    | cons d ds =>
      rw [List.flatMap_cons, List.append_assoc] at h
      exact absurd h.symm escaped_append_ne_quote
  | cons c cs ih =>
    rw [List.flatMap_cons, List.append_assoc] at h
    cases ds with
    | nil => exact absurd h escaped_append_ne_quote
    | cons d ds =>
      rw [List.flatMap_cons, List.append_assoc] at h
      obtain ⟨rfl, hTail⟩ := escaped_append h
      obtain ⟨rfl, hRest⟩ := ih hTail
      exact ⟨rfl, hRest⟩

/-- A quoted text can be read back, whatever follows it. -/
theorem quoted_append {v w : String} (h : (quoted v).toList ++ r = (quoted w).toList ++ s) :
    v = w ∧ r = s := by
  simp only [quoted, String.toList_ofList, List.cons_append, List.append_assoc, List.cons.injEq,
    true_and, List.nil_append] at h
  obtain ⟨hText, hRest⟩ := flatMap_escaped_append h
  exact ⟨String.toList_inj.1 hText, hRest⟩

end Text

end OntoFold
