import ContractTree.Ty.Basic
import Mathlib.Data.List.TakeWhile
import Mathlib.Tactic.SplitIfs

/-!
The text of a type tells the type. Two types have one text exactly if they differ in nothing but the visibility and
the mutability of function types, which are not written (`Ty.display_eq_iff`).

A text is read from the left. The first two letters say what sort of type it is, digits end where no digit follows,
and a function type has a result exactly if an arrow follows its arguments. So the statement that goes through by
induction is made with the rest of the text in view (`Ty.display_append_inj`): what follows a type inside of
another one is a comma or closes a bracket (`Ty.Closes`), and is never taken for a part of the type.
-/

namespace ContractTree

/-- Words of one class are told apart where something else follows them. -/
theorem append_inj_of_class {α : Type} {p : α → Bool} {xs ys r r' : List α} (hx : ∀ c ∈ xs, p c = true)
    (hy : ∀ c ∈ ys, p c = true) (hr : ∀ c ∈ r.head?, p c = false) (hr' : ∀ c ∈ r'.head?, p c = false)
    (h : xs ++ r = ys ++ r') : xs = ys ∧ r = r' := by
  have hspan : ∀ {zs s : List α}, (∀ c ∈ zs, p c = true) → (∀ c ∈ s.head?, p c = false) →
      (zs ++ s).takeWhile p = zs := by
    intro zs s hz hs
    rw [List.takeWhile_append_of_pos hz]
    cases s with
    | nil => simp
    | cons c s => simp [hs c (by simp)]
  obtain rfl : xs = ys := by rw [← hspan hx hr, h, hspan hy hr']
  exact ⟨rfl, List.append_cancel_left h⟩

theorem toDigits_append_inj {n m : Nat} {r r' : List Char} (hr : ∀ c ∈ r.head?, c.isDigit = false)
    (hr' : ∀ c ∈ r'.head?, c.isDigit = false) (h : Nat.toDigits 10 n ++ r = Nat.toDigits 10 m ++ r') :
    n = m ∧ r = r' := by
  have hdigits : ∀ k, ∀ c ∈ Nat.toDigits 10 k, c.isDigit = true := fun k c hc =>
    Nat.isDigit_of_mem_toDigits (by decide) (by decide) hc
  obtain ⟨hnm, hrest⟩ := append_inj_of_class (hdigits n) (hdigits m) hr hr' h
  refine ⟨?_, hrest⟩
  rw [← Nat.ofDigitChars_ten_toDigits (n := n), hnm, Nat.ofDigitChars_ten_toDigits]

namespace Ty

mutual

/-- The type as far as its text shows it: function types have one visibility and one mutability. -/
def shown : Ty → Ty
  | .dynArray item bound => .dynArray (shown item) bound
  | .mapping key value => .mapping (shown key) (shown value)
  | .storage keys value => .storage (shownAll keys) (shown value)
  | .function params none _ _ => .function (shownAll params) none .external .nonPayable
  | .function params (some result) _ _ => .function (shownAll params) (some (shown result)) .external .nonPayable
  | t => t

def shownAll : List Ty → List Ty
  | [] => []
  | t :: ts => shown t :: shownAll ts

end

mutual

theorem display_shown (t : Ty) : t.shown.display = t.display := by
  match t with
  | .dynArray item bound => rw [shown, display, display, display_shown item]
  | .mapping key value => rw [shown, display, display, display_shown key, display_shown value]
  | .storage keys value => rw [shown, display, display, displayList_shownAll keys, display_shown value]
  | .function params none _ _ => rw [shown, display, display, displayList_shownAll params]
  | .function params (some result) _ _ =>
    rw [shown, display, display, displayList_shownAll params, display_shown result]
  | .bool | .uint _ | .int _ | .address | .bytes _ | .string => rfl
termination_by sizeOf t

theorem displayList_shownAll (ts : List Ty) : displayList (shownAll ts) = displayList ts := by
  match ts with
  | [] => rfl
  | [t] => simp only [shownAll, displayList, display_shown t]
  | t :: u :: ts =>
    have ih := displayList_shownAll (u :: ts)
    simp only [shownAll, displayList, display_shown t] at ih ⊢
    rw [ih]
termination_by sizeOf ts

end

/-! ## The start of a text -/

/-- The first two letters of a type. -/
def lead : Ty → Char × Char
  | .bool => ('b', 'o')
  | .uint _ => ('u', 'i')
  | .int _ => ('i', 'n')
  | .address => ('a', 'd')
  | .bytes _ => ('b', 'y')
  | .string => ('S', 't')
  | .dynArray _ _ => ('D', 'y')
  | .mapping _ _ => ('H', 'a')
  | .storage _ _ => ('s', 't')
  | .function _ _ _ _ => ('f', 'u')

/-- What is written behind the arguments of a function type. -/
def arrowChars : Option Ty → List Char
  | none => []
  | some result => ' ' :: '-' :: '>' :: ' ' :: result.display.toList

theorem toList_display_function (params : List Ty) (returns : Option Ty) (v : Visibility) (m : Mutability) :
    (display (.function params returns v m)).toList =
      'f' :: 'u' :: 'n' :: 'c' :: 't' :: 'i' :: 'o' :: 'n' :: '(' ::
        ((displayList params).toList ++ ')' :: arrowChars returns) := by
  cases returns <;> simp [display, arrowChars]

theorem exists_display_eq_lead (t : Ty) : ∃ cs, t.display.toList = t.lead.1 :: t.lead.2 :: cs := by
  cases t with
  | function params returns v m => exact ⟨_, toList_display_function params returns v m⟩
  | _ => simp [display, lead]

theorem lead_eq_of_display {s t : Ty} {r r' : List Char} (h : s.display.toList ++ r = t.display.toList ++ r') :
    s.lead = t.lead := by
  obtain ⟨cs, hs⟩ := s.exists_display_eq_lead
  obtain ⟨ds, ht⟩ := t.exists_display_eq_lead
  simp only [hs, ht, List.cons_append, List.cons.injEq] at h
  exact Prod.ext h.1 h.2.1

/-! ## The rest of a text -/

/-- What may follow a type. -/
def Closes (r : List Char) : Prop := ∀ c ∈ r.head?, c = ',' ∨ c = ']' ∨ c = '>' ∨ c = ')'

/-- What may follow a list of types. -/
def ClosesList (r : List Char) : Prop := ∃ c, (c = ']' ∨ c = ')') ∧ ∃ r', r = c :: r'

variable {r r' : List Char}

theorem Closes.not_isDigit (h : Closes r) : ∀ c ∈ r.head?, c.isDigit = false := by
  intro c hc
  rcases h c hc with rfl | rfl | rfl | rfl <;> decide

theorem Closes.ne_arrow (h : Closes r) : r ≠ ' ' :: r' := by
  rintro rfl
  simpa using h ' ' (by simp)

theorem closes_cons {c : Char} (h : c = ',' ∨ c = ']' ∨ c = '>' ∨ c = ')') : Closes (c :: r) := by
  simpa [Closes] using h

/-- No type starts with what may follow one. -/
theorem not_closes_display (t : Ty) (r : List Char) : ¬ Closes (t.display.toList ++ r) := by
  obtain ⟨cs, hcs⟩ := t.exists_display_eq_lead
  rw [hcs]
  cases t <;> simp [lead, Closes]

theorem ClosesList.closes (h : ClosesList r) : Closes r := by
  obtain ⟨c, rfl | rfl, r', rfl⟩ := h <;> exact closes_cons (by simp)

/-- What is written behind the first of several types. -/
def restChars (ts : List Ty) : List Char := if ts = [] then [] else ',' :: ' ' :: (displayList ts).toList

theorem toList_displayList_nil : (displayList []).toList = [] := by simp [displayList]

theorem toList_displayList_cons (t : Ty) (ts : List Ty) :
    (displayList (t :: ts)).toList = t.display.toList ++ restChars ts := by
  cases ts <;> simp [displayList, restChars]

theorem ClosesList.closes_rest (h : ClosesList r) (ts : List Ty) : Closes (restChars ts ++ r) := by
  unfold restChars
  split
  · exact h.closes
  · exact closes_cons (by simp)

/-! ## Reading -/

mutual

/-- The text of a type says where it ends. -/
theorem display_append_inj (s t : Ty) (r r' : List Char) (hr : Closes r) (hr' : Closes r')
    (h : s.display.toList ++ r = t.display.toList ++ r') : s.shown = t.shown ∧ r = r' := by
  have hlead := lead_eq_of_display h
  have hcomma : ∀ {r : List Char}, Closes (',' :: r) := closes_cons (by simp)
  have hbracket : ∀ {r : List Char}, Closes (']' :: r) := closes_cons (by simp)
  have hangle : ∀ {r : List Char}, Closes ('>' :: r) := closes_cons (by simp)
  match s with
  | .bool =>
    cases t with
    | bool => simpa [display] using h
    | _ => simp [lead] at hlead
  | .uint bits =>
    cases t with
    | uint bits' =>
      obtain ⟨hbits, hrest⟩ := toDigits_append_inj hr.not_isDigit hr'.not_isDigit (by simpa [display] using h)
      exact ⟨by rw [UInt16.toNat_inj.1 hbits], hrest⟩
    | _ => simp [lead] at hlead
  | .int bits =>
    cases t with
    | int bits' =>
      obtain ⟨hbits, hrest⟩ := toDigits_append_inj hr.not_isDigit hr'.not_isDigit (by simpa [display] using h)
      exact ⟨by rw [UInt16.toNat_inj.1 hbits], hrest⟩
    | _ => simp [lead] at hlead
  | .address =>
    cases t with
    | address => simpa [display] using h
    | _ => simp [lead] at hlead
  | .bytes size =>
    cases t with
    | bytes size' =>
      obtain ⟨hsize, hrest⟩ := toDigits_append_inj hr.not_isDigit hr'.not_isDigit (by simpa [display] using h)
      exact ⟨by rw [UInt8.toNat_inj.1 hsize], hrest⟩
    | _ => simp [lead] at hlead
  | .string =>
    cases t with
    | string => simpa [display] using h
    | _ => simp [lead] at hlead
  | .dynArray item bound =>
    cases t with
    | dynArray item' bound' =>
      obtain ⟨hitem, h⟩ := display_append_inj item item' _ _ hcomma hcomma (by simpa [display] using h)
      obtain ⟨hbound, h⟩ := toDigits_append_inj hbracket.not_isDigit hbracket.not_isDigit (by simpa using h)
      exact ⟨by rw [shown, shown, hitem, UInt64.toNat_inj.1 hbound], (List.cons.inj h).2⟩
    | _ => simp [lead] at hlead
  | .mapping key value =>
    cases t with
    | mapping key' value' =>
      obtain ⟨hkey, h⟩ := display_append_inj key key' _ _ hcomma hcomma (by simpa [display] using h)
      obtain ⟨hvalue, h⟩ := display_append_inj value value' _ _ hbracket hbracket (by simpa using h)
      exact ⟨by rw [shown, shown, hkey, hvalue], (List.cons.inj h).2⟩
    | _ => simp [lead] at hlead
  | .storage keys value =>
    cases t with
    | storage keys' value' =>
      obtain ⟨hkeys, h⟩ := displayList_append_inj keys keys' _ _ ⟨']', .inl rfl, _, rfl⟩ ⟨']', .inl rfl, _, rfl⟩
        (by simpa [display] using h)
      obtain ⟨hvalue, h⟩ := display_append_inj value value' _ _ hangle hangle (by simpa using h)
      exact ⟨by rw [shown, shown, hkeys, hvalue], (List.cons.inj h).2⟩
    | _ => simp [lead] at hlead
  | .function params none v m =>
    cases t with
    | function params' returns' v' m' =>
      obtain ⟨hparams, h⟩ := displayList_append_inj params params' _ _ ⟨')', .inr rfl, _, rfl⟩ ⟨')',
        .inr rfl, _, rfl⟩ (by simpa [toList_display_function] using h)
      cases returns' with
      | none => exact ⟨by rw [shown, shown, hparams], (List.cons.inj h).2⟩
      | some result' => exact absurd (List.cons.inj h).2 hr.ne_arrow
    | _ => simp [lead] at hlead
  | .function params (some result) v m =>
    cases t with
    | function params' returns' v' m' =>
      obtain ⟨hparams, h⟩ := displayList_append_inj params params' _ _ ⟨')', .inr rfl, _, rfl⟩ ⟨')',
        .inr rfl, _, rfl⟩ (by simpa [toList_display_function] using h)
      cases returns' with
      | none => exact absurd (List.cons.inj h).2.symm hr'.ne_arrow
      | some result' =>
        obtain ⟨hresult, h⟩ := display_append_inj result result' r r' hr hr' (by simpa [arrowChars] using h)
        exact ⟨by rw [shown, shown, hparams, hresult], h⟩
    | _ => simp [lead] at hlead
termination_by sizeOf s

/-- A list of types that is closed says where each type ends. -/
theorem displayList_append_inj (ss ts : List Ty) (r r' : List Char) (hr : ClosesList r) (hr' : ClosesList r')
    (h : (displayList ss).toList ++ r = (displayList ts).toList ++ r') : shownAll ss = shownAll ts ∧ r = r' := by
  match ss, ts with
  | [], [] => exact ⟨rfl, by simpa [displayList] using h⟩
  | [], t :: ts =>
    rw [toList_displayList_nil, List.nil_append, toList_displayList_cons, List.append_assoc] at h
    exact absurd (h ▸ hr.closes) (not_closes_display t _)
  | s :: ss, [] =>
    rw [toList_displayList_nil, List.nil_append, toList_displayList_cons, List.append_assoc] at h
    exact absurd (h ▸ hr'.closes) (not_closes_display s _)
  | s :: ss, t :: ts =>
    rw [toList_displayList_cons, toList_displayList_cons, List.append_assoc, List.append_assoc] at h
    obtain ⟨hst, h⟩ := display_append_inj s t _ _ (hr.closes_rest ss) (hr'.closes_rest ts) h
    obtain ⟨c, hc, r₁, rfl⟩ := hr
    obtain ⟨c', hc', r₁', rfl⟩ := hr'
    unfold restChars at h
    split_ifs at h with hss hts hts
    · exact ⟨by rw [shownAll, shownAll, hst, hss, hts], h⟩
    · -- one list ends where the other goes on with a comma
      rcases hc with rfl | rfl <;> simp at h
    · rcases hc' with rfl | rfl <;> simp at h
    · obtain ⟨htail, h⟩ := displayList_append_inj ss ts _ _ ⟨c, hc, r₁, rfl⟩ ⟨c', hc', r₁', rfl⟩ (by simpa using h)
      exact ⟨by rw [shownAll, shownAll, hst, htail], h⟩
termination_by sizeOf ss

end

/-- **Printed types are unambiguous.** Two types have the same text exactly if they are the same up to the
visibility and the mutability of the function types inside them. -/
theorem display_eq_iff (s t : Ty) : s.display = t.display ↔ s.shown = t.shown := by
  constructor
  · intro h
    exact (display_append_inj s t [] [] (by simp [Closes]) (by simp [Closes]) (by rw [h])).1
  · intro h
    rw [← display_shown s, h, display_shown t]

/-- What is not shown of a function type makes no difference, and where the arrow stands does. -/
example : (function [.function [.bool] none .internal .view] (some .string) .external .pure).display =
      (function [.function [.bool] none .external .pure] (some .string) .internal .view).display ∧
    (function [.function [.bool] none .internal .view] (some .string) .external .pure).display ≠
      (function [.function [.bool] (some .string) .internal .view] none .external .pure).display := by
  decide

end Ty

end ContractTree
