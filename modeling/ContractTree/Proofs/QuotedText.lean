import ContractTree.Proofs.TypeText
import ContractTree.Text.Quoted

/-!
String literals can be read back. A character of a literal is written as itself, as an escape of two characters, or
as its number (`Text.quoteChar_cases`); the first characters tell which, and the number ends at its bracket. So a
literal tells its text and where it ends, whatever follows it (`Text.quoted_append_inj`).
-/

namespace ContractTree.Text

theorem exists_digitChar_of_mem {b n : Nat} {c : Char} (hb : 1 < b) (h : c ∈ Nat.toDigits b n) :
    ∃ d, c = Nat.digitChar d := by
  induction n using Nat.strongRecOn with
  | ind n ih =>
    rw [Nat.toDigits_eq_if hb] at h
    split at h
    · exact ⟨n, List.mem_singleton.1 h⟩
    · next hn =>
      rcases List.mem_append.1 h with h | h
      · exact ih (n / b) (Nat.div_lt_self (by omega) hb) h
      · exact ⟨n % b, List.mem_singleton.1 h⟩

theorem digitChar_inj_of_lt {d e : Nat} (hd : d < 16) (he : e < 16) (h : Nat.digitChar d = Nat.digitChar e) :
    d = e := by
  have hall : ∀ d < 16, ∀ e < 16, Nat.digitChar d = Nat.digitChar e → d = e := by decide
  exact hall d hd e he h

theorem toDigits_sixteen_inj {n m : Nat} (h : Nat.toDigits 16 n = Nat.toDigits 16 m) : n = m := by
  induction n using Nat.strongRecOn generalizing m with
  | ind n ih =>
    rw [Nat.toDigits_eq_if (by decide), Nat.toDigits_eq_if (n := m) (by decide)] at h
    split at h <;> split at h
    · next hn hm => exact digitChar_inj_of_lt hn hm (List.cons.inj h).1
    · have := congrArg List.length h
      have := Nat.length_toDigits_pos (b := 16) (n := m / 16)
      simp at *
    · have := congrArg List.length h
      have := Nat.length_toDigits_pos (b := 16) (n := n / 16)
      simp at *
    · obtain ⟨hhigh, hlow⟩ := List.append_inj' h rfl
      have hdiv := ih (n / 16) (by omega) hhigh
      have hmod := digitChar_inj_of_lt (Nat.mod_lt n (by decide)) (Nat.mod_lt m (by decide)) (List.cons.inj hlow).1
      omega

/-- The characters with an escape of their own, and what stands behind the backslash. -/
def escapes : List (Char × Char) := [('"', '"'), ('\\', '\\'), ('\n', 'n'), ('\r', 'r'), ('\t', 't'),
    ('\x00', '0')]

/-- What a character is written as. -/
theorem quoteChar_cases (c : Char) :
    (∃ e, (c, e) ∈ escapes ∧ quoteChar c = ['\\', e]) ∨
      quoteChar c = '\\' :: 'u' :: '{' :: (Nat.toDigits 16 c.toNat ++ ['}']) ∨
      quoteChar c = [c] ∧ c ≠ '"' ∧ c ≠ '\\' ∧ 0x20 ≤ c.toNat := by
  unfold quoteChar
  split_ifs with h1 h2 h3 h4 h5 h6 h7
  · exact .inl ⟨'"', by simp [escapes, h1], rfl⟩
  · exact .inl ⟨'\\', by simp [escapes, h2], rfl⟩
  · exact .inl ⟨'n', by simp [escapes, h3], rfl⟩
  · exact .inl ⟨'r', by simp [escapes, h4], rfl⟩
  · exact .inl ⟨'t', by simp [escapes, h5], rfl⟩
  · exact .inl ⟨'0', by simp [escapes, h6], rfl⟩
  · exact .inr (.inl rfl)
  · refine .inr (.inr ⟨rfl, h1, h2, ?_⟩)
    simp only [needsNumber, Bool.or_eq_true, decide_eq_true_eq, not_or] at h7
    omega

theorem escapes_inj {c d e : Char} (hc : (c, e) ∈ escapes) (hd : (d, e) ∈ escapes) : c = d := by
  have hall : ∀ p ∈ escapes, ∀ q ∈ escapes, p.2 = q.2 → p.1 = q.1 := by decide
  exact hall _ hc _ hd rfl

theorem ne_of_mem_escapes {c e : Char} (h : (c, e) ∈ escapes) : e ≠ 'u' := by
  have hall : ∀ p ∈ escapes, p.2 ≠ 'u' := by decide
  exact hall _ h

theorem quoteChar_append_inj {c d : Char} {r r' : List Char} (h : quoteChar c ++ r = quoteChar d ++ r') :
    c = d ∧ r = r' := by
  rcases quoteChar_cases c with ⟨e, hc, he⟩ | hc | ⟨hc, -, hback, -⟩ <;>
    rcases quoteChar_cases d with ⟨e', hd, he'⟩ | hd | ⟨hd, -, hback', -⟩
  · rw [he, he'] at h
    obtain ⟨he, hr⟩ := List.cons.inj (List.cons.inj h).2
    exact ⟨escapes_inj hc (he ▸ hd), hr⟩
  · rw [he, hd] at h
    exact absurd (List.cons.inj (List.cons.inj h).2).1 (ne_of_mem_escapes hc)
  · rw [he, hd] at h
    exact absurd (List.cons.inj h).1.symm hback'
  · rw [hc, he'] at h
    exact absurd (List.cons.inj (List.cons.inj h).2).1.symm (ne_of_mem_escapes hd)
  · -- two numbers: the digits end at the bracket
    rw [hc, hd] at h
    simp only [List.cons_append, List.append_assoc, List.cons.injEq, true_and] at h
    have hdigits : ∀ n, ∀ x ∈ Nat.toDigits 16 n, (x != '}') = true := by
      intro n x hx
      obtain ⟨k, rfl⟩ := exists_digitChar_of_mem (by decide) hx
      simp
    obtain ⟨hnum, hrest⟩ := append_inj_of_class (hdigits _) (hdigits _) (by simp) (by simp) h
    exact ⟨Char.toNat_inj.1 (toDigits_sixteen_inj hnum), by simpa using hrest⟩
  · rw [hc, hd] at h
    exact absurd (List.cons.inj h).1.symm hback'
  · rw [hc, he'] at h
    exact absurd (List.cons.inj h).1 hback
  · rw [hc, hd] at h
    exact absurd (List.cons.inj h).1 hback
  · rw [hc, hd] at h
    simpa using h

/-- No character is written with a quote at its start. -/
theorem quoteChar_append_ne {c : Char} {r r' : List Char} : quoteChar c ++ r ≠ '"' :: r' := by
  intro h
  rcases quoteChar_cases c with ⟨e, -, he⟩ | hc | ⟨hc, hquote, -, -⟩
  · rw [he] at h
    simp at h
  · rw [hc] at h
    simp at h
  · rw [hc] at h
    exact hquote (List.cons.inj h).1

theorem flatMap_quoteChar_inj {xs ys r r' : List Char}
    (h : xs.flatMap quoteChar ++ '"' :: r = ys.flatMap quoteChar ++ '"' :: r') : xs = ys ∧ r = r' := by
  induction xs generalizing ys with
  | nil =>
    cases ys with
    | nil => simpa using h
    | cons d ys =>
      rw [List.flatMap_cons, List.append_assoc] at h
      exact absurd h.symm quoteChar_append_ne
  | cons c xs ih =>
    cases ys with
    | nil =>
      rw [List.flatMap_cons, List.append_assoc] at h
      exact absurd h quoteChar_append_ne
    | cons d ys =>
      rw [List.flatMap_cons, List.flatMap_cons, List.append_assoc, List.append_assoc] at h
      obtain ⟨rfl, hrest⟩ := quoteChar_append_inj h
      obtain ⟨rfl, rfl⟩ := ih hrest
      exact ⟨rfl, rfl⟩

/-- **A literal tells its text and where it ends.** -/
theorem quoted_append_inj {s t : String} {r r' : List Char}
    (h : (quoted s).toList ++ r = (quoted t).toList ++ r') : s = t ∧ r = r' := by
  simp only [quoted, String.toList_ofList, List.cons_append, List.append_assoc, List.cons.injEq, true_and] at h
  obtain ⟨hst, hr⟩ := flatMap_quoteChar_inj h
  exact ⟨String.toList_inj.1 hst, hr⟩

end ContractTree.Text
