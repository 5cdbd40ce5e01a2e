import ContractTree.Lowering.Access
import ContractTree.Proofs.Holds

/-!
Chains of subscripts in trees. A tree is a base in as many links as it has subscripts around the base
(`Tree.plug_links`); it reaches a state variable when the base is a member of `self` that the catalog lists
(`Tree.reach`). What a store says about the chain and the access at a node is what its tree says:
`Store.Holds.accessAt`, `Store.Holds.targetAccess`.
-/

namespace ContractTree

/-- A subscript without what it is applied to. -/
structure Link where
  id : NodeId
  ty : Option Ty
  key : Tree

/-- The place of what is subscripted. -/
def Link.frame (l : Link) : Frame := ⟨l.id, l.ty, .subscript, .heads, [], [l.key], [], []⟩

/-- The place of the key of a subscript that is applied to `value`. -/
def Link.keyFrame (l : Link) (value : Tree) : Frame := ⟨l.id, l.ty, .subscript, .heads, [value], [], [], []⟩

namespace Tree

/-- The tree in these subscripts, the first of them innermost. -/
def wrap (t : Tree) (ls : List Link) : Tree := Ctx.plug (ls.map Link.frame) t

/-- The subscripts around the base, innermost first. -/
def links : Tree → List Link
  | .node i ty .subscript [v, k] _ _ => links v ++ [⟨i, ty, k⟩]
  | _ => []

/-- What the subscripts are around. -/
def base : Tree → Tree
  | .node _ _ .subscript [v, _] _ _ => base v
  | t => t

/-- The variable that the tree names as a member of `self`. -/
def receiver? (c : Catalog) : Tree → Option StorageVar
  | .node _ _ (.member attr) [v] _ _ => if v.label = .name "self" then c.find? attr else none
  | _ => none

/-- The variable that the tree reaches through its subscripts. -/
def reach (c : Catalog) (t : Tree) : Option StorageVar := t.base.receiver? c

/-- The variable that the tree is a complete access to. -/
def access? (c : Catalog) (t : Tree) : Option StorageVar := (t.reach c).filter (·.depth = t.links.length)

/-- Whether the tree reaches a variable with too few subscripts. -/
def Short (c : Catalog) (t : Tree) : Prop := ∃ v, t.reach c = some v ∧ t.links.length < v.depth

variable {c : Catalog} {t : Tree}

/-- A tree whose label takes two heads and no statements. -/
theorem Fits.two_heads (h : t.Fits) (hl : ∀ a b d, t.label.Fits a b d → a = 2 ∧ b = 0 ∧ d = 0) :
    ∃ x y, t = .node t.id t.ty t.label [x, y] [] [] := by
  obtain ⟨i, ty, l, hs, bs, os⟩ := t
  obtain ⟨hh, hb, ho⟩ := hl _ _ _ ((fits_iff _).1 h).1
  obtain ⟨x, y, rfl⟩ := List.length_eq_two.1 hh
  rw [List.length_eq_zero_iff] at hb ho
  obtain rfl : bs = [] := hb
  obtain rfl : os = [] := ho
  exact ⟨x, y, rfl⟩

theorem Fits.subscript_cases (h : t.Fits) :
    (∃ i ty v k, t = .node i ty .subscript [v, k] [] []) ∨ t.label ≠ .subscript := by
  by_cases hl : t.label = .subscript
  · obtain ⟨v, k, ht⟩ := h.two_heads (by rw [hl]; exact fun _ _ _ h => h)
    exact .inl ⟨t.id, t.ty, v, k, by rw [← hl]; exact ht⟩
  · exact .inr hl

theorem Fits.member_cases (h : t.Fits) :
    (∃ i ty attr v, t = .node i ty (.member attr) [v] [] []) ∨ ∀ attr, t.label ≠ .member attr := by
  obtain ⟨i, ty, l, hs, bs, os⟩ := t
  by_cases hl : ∃ attr, l = .member attr
  · obtain ⟨attr, rfl⟩ := hl
    obtain ⟨hh, hb, ho⟩ := ((fits_iff _).1 h).1
    obtain ⟨v, rfl⟩ := List.length_eq_one_iff.1 hh
    rw [List.length_eq_zero_iff] at hb ho
    obtain rfl : bs = [] := hb
    obtain rfl : os = [] := ho
    exact .inl ⟨i, ty, attr, v, rfl⟩
  · exact .inr fun attr he => hl ⟨attr, he⟩

theorem links_of_label (h : t.label ≠ .subscript) : t.links = [] := by
  unfold links
  split
  · simp at h
  · rfl

theorem base_of_label (h : t.label ≠ .subscript) : t.base = t := by
  unfold base
  split
  · simp at h
  · rfl

theorem receiver?_of_label (h : ∀ attr, t.label ≠ .member attr) : t.receiver? c = none := by
  unfold receiver?
  split
  · simp at h
  · rfl

@[simp] theorem wrap_nil : t.wrap [] = t := rfl

theorem wrap_concat (l : Link) (ls : List Link) :
    t.wrap (ls ++ [l]) = .node l.id l.ty .subscript [t.wrap ls, l.key] [] [] := by
  rw [wrap, List.map_append, Ctx.plug_append]
  rfl

/-- **A tree is its base in its links.** -/
theorem plug_links (h : t.Fits) : t.base.wrap t.links = t := by
  induction t with
  | step t ih =>
    rcases h.subscript_cases with ⟨i, ty, v, k, rfl⟩ | hl
    · rw [links, base, wrap_concat, ih v (by simp) (h.kid (by simp))]
    · rw [links_of_label hl, base_of_label hl, wrap_nil]

theorem base_wrap (h : t.label ≠ .subscript) (ls : List Link) : (t.wrap ls).base = t := by
  induction ls using List.reverseRecOn with
  | nil => exact base_of_label h
  | append_singleton ls l ih => rw [wrap_concat, base, ih]

theorem links_wrap (h : t.label ≠ .subscript) (ls : List Link) : (t.wrap ls).links = ls := by
  induction ls using List.reverseRecOn with
  | nil => exact links_of_label h
  | append_singleton ls l ih => rw [wrap_concat, links, ih]

theorem label_base (h : t.Fits) : t.base.label ≠ .subscript := by
  induction t with
  | step t ih =>
    rcases h.subscript_cases with ⟨i, ty, v, k, rfl⟩ | hl
    · rw [base]
      exact ih v (by simp) (h.kid (by simp))
    · rwa [base_of_label hl]

theorem fits_base (h : t.Fits) : t.base.Fits := by
  have := plug_links h
  rw [wrap] at this
  exact Ctx.fits_of_plug (this ▸ h)

theorem fits_key (h : t.Fits) : ∀ k ∈ t.links.map Link.key, k.Fits := by
  induction t with
  | step t ih =>
    rcases h.subscript_cases with ⟨i, ty, v, k, rfl⟩ | hl
    · rw [links, List.map_append, List.forall_mem_append]
      exact ⟨ih v (by simp) (h.kid (by simp)), by simpa using h.kid (by simp)⟩
    · simp [links_of_label hl]

theorem length_links_lt : t.links.length < t.ids.length := by
  induction t with
  | step t ih =>
    unfold links
    split
    · next i ty v k bs os =>
      have h1 := ih v (by simp)
      have h2 := Store.length_ids_kid_lt (t := .node i ty .subscript [v, k] bs os) (k := v) (by simp)
      simp only [List.length_append, List.length_singleton]
      omega
    · rw [ids_eq]
      simp

theorem access?_eq_some_iff {v : StorageVar} :
    t.access? c = some v ↔ t.reach c = some v ∧ v.depth = t.links.length := by
  simp [access?, Option.filter_eq_some_iff]

/-- A member of `self` is an access or too short. -/
theorem access?_or_short {v : StorageVar} (h : t.receiver? c = some v) : t.access? c = some v ∨ t.Short c := by
  have hl : t.label ≠ .subscript := by
    intro hl
    rw [receiver?_of_label (by simp [hl])] at h
    cases h
  have hr : t.reach c = some v := by rw [reach, base_of_label hl, h]
  rw [access?_eq_some_iff, Short, links_of_label hl, List.length_nil]
  by_cases hd : v.depth = 0
  · exact .inl ⟨hr, hd⟩
  · exact .inr ⟨v, hr, by omega⟩

end Tree

/-! ## Chains in a store -/

namespace Store

variable {s : Store} {c : Catalog} {p : Option NodeId} {t : Tree}

theorem Holds.subscripted?_subscript {i : NodeId} {ty : Option Ty} {v k : Tree}
    (h : s.Holds p (.node i ty .subscript [v, k] [] [])) : s.subscripted? i = some v.id := by
  have := h.kind?
  rw [Tree.id_node] at this
  rw [Store.subscripted?, this]
  rfl

theorem Holds.subscripted?_of_label (h : s.Holds p t) (hf : t.Fits) (hl : t.label ≠ .subscript) :
    s.subscripted? t.id = none := by
  rw [Store.subscripted?, h.kind?]
  split
  · next v k hk =>
    injection hk with hk
    have := hf.label_kind
    rw [hk] at this
    exact absurd this.symm hl
  · rfl

theorem Holds.innermostWithin {fuel : Nat} (h : s.Holds p t) (hf : t.Fits) (hfuel : t.links.length ≤ fuel) :
    s.innermostWithin fuel t.id = t.base.id := by
  induction t generalizing p fuel with
  | step t ih =>
    rcases hf.subscript_cases with ⟨i, ty, v, k, rfl⟩ | hl
    · rw [Tree.links, List.length_append, List.length_singleton] at hfuel
      obtain ⟨fuel, rfl⟩ : ∃ n, fuel = n + 1 := ⟨fuel - 1, by omega⟩
      rw [Store.innermostWithin, Tree.id_node, h.subscripted?_subscript, Tree.base]
      exact ih v (by simp) (h.kid (by simp)) (hf.kid (by simp)) (by omega)
    · rw [Tree.base_of_label hl]
      cases fuel with
      | zero => rfl
      | succ fuel => rw [Store.innermostWithin, h.subscripted?_of_label hf hl]

theorem Holds.chainWithin {fuel : Nat} (h : s.Holds p t) (hf : t.Fits) (hfuel : t.links.length ≤ fuel) :
    s.chainWithin fuel t.id = (t.links.map Link.id).reverse := by
  induction t generalizing p fuel with
  | step t ih =>
    rcases hf.subscript_cases with ⟨i, ty, v, k, rfl⟩ | hl
    · rw [Tree.links, List.length_append, List.length_singleton] at hfuel
      obtain ⟨fuel, rfl⟩ : ∃ n, fuel = n + 1 := ⟨fuel - 1, by omega⟩
      rw [Store.chainWithin, Tree.id_node, h.subscripted?_subscript, Tree.links]
      simp only [List.map_append, List.map_cons, List.map_nil, List.reverse_append, List.reverse_singleton,
        List.singleton_append]
      rw [ih v (by simp) (h.kid (by simp)) (hf.kid (by simp)) (by omega)]
    · rw [Tree.links_of_label hl]
      cases fuel with
      | zero => rfl
      | succ fuel =>
        rw [Store.chainWithin, h.subscripted?_of_label hf hl]
        rfl

theorem Holds.base (h : s.Holds p t) (hf : t.Fits) : ∃ q, s.Holds q t.base := by
  induction t generalizing p with
  | step t ih =>
    rcases hf.subscript_cases with ⟨i, ty, v, k, rfl⟩ | hl
    · rw [Tree.base]
      exact ih v (by simp) (h.kid (by simp)) (hf.kid (by simp))
    · exact ⟨p, by rwa [Tree.base_of_label hl]⟩

theorem isName_kind (hf : t.Fits) (x : String) : t.kind.isName x = true ↔ t.label = .name x := by
  have hl := hf.label_kind
  unfold Kind.isName Kind.name?
  split
  · next y hy =>
    rw [hy] at hl
    rw [← hl]
    simp [Kind.label]
  · next hne =>
    simp only [reduceCtorEq, decide_false, Bool.false_eq_true, false_iff]
    intro he
    rw [he] at hl
    cases hk : t.kind <;> simp_all [Kind.label]

theorem Holds.receiver? (h : s.Holds p t) (hf : t.Fits) : s.receiver? c t.id = t.receiver? c := by
  rcases hf.member_cases with ⟨i, ty, attr, v, rfl⟩ | hl
  · have hv := h.kid (k := v) (by simp)
    have hfv := hf.kid (k := v) (by simp)
    have hk : s.kind? i = some (.member v.id attr) := h.kind?
    rw [Store.receiver?, Tree.id_node, hk]
    simp only [hv.kind?, Tree.receiver?, isName_kind hfv]
  · rw [Tree.receiver?_of_label hl, Store.receiver?, h.kind?]
    split
    · next v attr hk =>
      injection hk with hk
      have := hf.label_kind
      rw [hk] at this
      exact absurd this.symm (hl attr)
    · rfl

variable (hf : t.Fits) (hn : t.ids.Nodup)
include hf hn

theorem Holds.innermost (h : s.Holds p t) : s.innermost t.id = t.base.id := by
  have := h.length_le hn
  have := t.length_links_lt
  exact h.innermostWithin hf (by unfold size at *; omega)

theorem Holds.chain (h : s.Holds p t) : s.chain t.id = (t.links.map Link.id).reverse := by
  have := h.length_le hn
  have := t.length_links_lt
  exact h.chainWithin hf (by unfold size at *; omega)

theorem Holds.receiver?_innermost (h : s.Holds p t) : s.receiver? c (s.innermost t.id) = t.reach c := by
  obtain ⟨q, hb⟩ := h.base hf
  rw [h.innermost hf hn, hb.receiver? (Tree.fits_base hf), Tree.reach]

/-- The access at a node is read off its tree. -/
theorem Holds.accessAt (h : s.Holds p t) :
    (s.accessAt c t.id = .ok none ∧ t.access? c = none ∧ (t.Short c → s.isSubscripted t.id = true)) ∨
      ((∃ e, s.accessAt c t.id = .error e) ∧ t.Short c ∧ s.isSubscripted t.id = false) ∨
      ∃ v, t.access? c = some v ∧ s.accessAt c t.id = .ok (some ⟨v, t.id, t.links.map Link.id⟩) := by
  unfold Store.accessAt
  rw [h.receiver?_innermost hf hn, h.chain hf hn, List.length_reverse, List.length_map, List.reverse_reverse]
  unfold Tree.Short Tree.access?
  cases hr : t.reach c with
  | none => exact .inl ⟨rfl, rfl, by simp⟩
  | some v =>
    simp only [Option.some.injEq, exists_eq_left']
    by_cases h1 : v.depth < t.links.length
    · exact .inl ⟨by simp [h1], by simp; omega, fun h2 => by omega⟩
    · by_cases h2 : t.links.length < v.depth
      · cases hs : s.isSubscripted t.id with
        | true => exact .inl ⟨by simp [h1, h2], by simp; omega, fun _ => rfl⟩
        | false =>
          exact .inr (.inl ⟨⟨.unresolvedKeyChain .., by simp only [h1, h2, if_true, if_false]; rfl⟩, h2, rfl⟩)
      · exact .inr (.inr ⟨v, by simp; omega, by simp [h1, h2]⟩)

/-- The access that an assignment stores to is read off the tree of the target. -/
theorem Holds.targetAccess (h : s.Holds p t) :
    (s.targetAccess c t.id = .ok none ∧ t.reach c = none) ∨
      ((∃ e, s.targetAccess c t.id = .error e) ∧ t.reach c ≠ none ∧ t.access? c = none) ∨
      ∃ v, t.access? c = some v ∧ s.targetAccess c t.id = .ok (some ⟨v, t.id, t.links.map Link.id⟩) := by
  unfold Store.targetAccess
  rw [h.receiver?_innermost hf hn, h.chain hf hn, List.length_reverse, List.length_map, List.reverse_reverse]
  unfold Tree.access?
  cases hr : t.reach c with
  | none => exact .inl ⟨rfl, rfl⟩
  | some v =>
    by_cases h1 : v.depth < t.links.length
    · exact .inr (.inl ⟨⟨.unsupportedTarget .., by simp only [h1, if_true]; rfl⟩, by simp, by simp; omega⟩)
    · by_cases h2 : t.links.length < v.depth
      · exact .inr (.inl ⟨⟨.unresolvedKeyChain .., by simp only [h1, h2, if_true, if_false]; rfl⟩, by simp, by
          simp; omega⟩)
      · exact .inr (.inr ⟨v, by simp; omega, by simp [h1, h2]⟩)

end Store

end ContractTree
