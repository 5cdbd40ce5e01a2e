import ContractTree.Proofs.Tidy

/-!
What the changes of a store keep of its types. Every type is one of the store `s₀` that there was at first, or the
slot, the value, a key or the getter of a variable that `s₀` declares (`Store.Typed`).

A variable may be declared with the type of its target, and the target may be replaced before the declaration is
looked at. So the type of a target is followed as well, as long as the declaration owns what it lists
(`Store.Owns`): only then can a new node not come to be its target by chance, where the store has links to
identities that are still to be handed out.
-/

namespace ContractTree

namespace Kind

/-- The target of a declaration whose variable lives in a slot. -/
def declares? : Kind → Option NodeId
  | .variableDecl target _ _ false false => some target
  | _ => none

variable {k k' : Kind} {t old new anchor : NodeId}

theorem declares?_eq_some : k.declares? = some t ↔
    ∃ value isPublic, k = .variableDecl t value isPublic false false := by
  cases k <;> simp [declares?]
  case variableDecl target value p c i => cases c <;> cases i <;> simp

theorem isSome_declares? : k.declares?.isSome = true ↔
    ∃ isPublic, k.label = .variableDecl isPublic false false := by
  cases k <;> simp [declares?, label]
  case variableDecl target value p c i => cases c <;> cases i <;> simp

theorem mem_children_of_declares? (h : k.declares? = some t) : t ∈ k.children := by
  obtain ⟨value, isPublic, rfl⟩ := declares?_eq_some.1 h
  simp [children]

end Kind

/-- Whether a node with this label may come to be the target of a declaration: a name, or what a name may replace.
-/
def Label.isPlace : Label → Bool
  | .name _ | .member _ | .subscript => true
  | _ => false

namespace Store

/-- A type with which a state variable may be declared, in a store that was `s₀` at first: that of a declaration or
of its target, or what lowering makes of such a type. -/
inductive Declared (s₀ : Store) : Ty → Prop where
  | decl {n : Node} {t : NodeId} {ty : Ty} (hn : n ∈ s₀.nodes) (hd : n.kind.declares? = some t)
      (hty : n.ty = some ty) :
    Declared s₀ ty
  | target {n : Node} {t : NodeId} {ty : Ty} (hn : n ∈ s₀.nodes) (hd : n.kind.declares? = some t)
    (hty : s₀.ty? t = some ty) : Declared s₀ ty
  | slot {ty : Ty} (h : Declared s₀ ty) : Declared s₀ ty.slot
  | value {ty : Ty} (h : Declared s₀ ty) : Declared s₀ ty.slotValue

/-- A type that the pass may write into a store that was `s₀` at first. -/
inductive Written (s₀ : Store) : Ty → Prop where
  | source {n : Node} {ty : Ty} (hn : n ∈ s₀.nodes) (hty : n.ty = some ty) : Written s₀ ty
  | slot {ty : Ty} (h : s₀.Declared ty) : Written s₀ ty.slot
  | value {ty : Ty} (h : s₀.Declared ty) : Written s₀ ty.slotValue
  | key {ty key : Ty} (h : s₀.Declared ty) (hk : key ∈ ty.slotKeys) : Written s₀ key
  | getter {ty : Ty} {params : List Ty} {returns : Option Ty} {visibility : Visibility} {mutability : Mutability}
    (h : s₀.Declared ty) (hp : ∀ p ∈ params, p ∈ ty.slotKeys) (hr : ∀ r ∈ returns, r = ty.slotValue) :
    Written s₀ (.function params returns visibility mutability)

/-- The node `i` lists what is in `l` once, and is named as its parent. -/
def Owns (s : Store) (i : NodeId) (l : List NodeId) : Prop := l.Nodup ∧ ∀ c ∈ l, s.parent? c = some i

/-- What the pass keeps true of the types of its store, which was `s₀` at first. -/
structure Typed (s₀ s : Store) : Prop where
  types : ∀ {i n ty}, s.find? i = some n → n.ty = some ty → s₀.Written ty
  declared : ∀ {i n ty}, s.find? i = some n → n.kind.declares?.isSome = true → n.ty = some ty → s₀.Declared ty
  target : ∀ {i t n k ty}, s.find? i = some n → n.kind.declares? = some t → s.Owns i n.kind.children →
    s.find? t = some k → k.kind.label.isPlace = true → k.ty = some ty → s₀.Declared ty

variable {s₀ s s' : Store} {i : NodeId}

theorem Typed.refl (s : Store) : s.Typed s where
  types hn hty := .source (mem_of_find? hn) hty
  declared hn hd hty := by
    obtain ⟨t, ht⟩ := Option.isSome_iff_exists.1 hd
    exact .decl (mem_of_find? hn) ht hty
  target hn hd _ hk _ hty := .target (mem_of_find? hn) hd (by rw [Store.ty?, hk]; exact hty)

/-- A change in which every node keeps its type or gets one that it may have, and a declaration that owns what it
lists is as before, with what it lists. -/
theorem Typed.step (h : s₀.Typed s)
    (htypes : ∀ {i n'}, s'.find? i = some n' →
      (∃ n, s.find? i = some n ∧ n'.ty = n.ty ∧ n'.kind.label = n.kind.label) ∨
      n'.kind.declares? = none ∧ ∀ ty, n'.ty = some ty → s₀.Written ty)
    (howned : ∀ {i n'}, s'.find? i = some n' → n'.kind.declares?.isSome = true →
      (∃ n, s.find? i = some n ∧ n.kind = n'.kind) ∧ ∀ {c k'}, s'.find? c = some k' → k'.parent = some i →
        ∃ k, s.find? c = some k ∧ k.parent = some i ∧ k.kind.label = k'.kind.label ∧
        k.ty = k'.ty) : s₀.Typed s' where
  types hn' hty := by
    rcases htypes hn' with ⟨n, hn, he, -⟩ | ⟨-, hw⟩
    · exact h.types hn (he ▸ hty)
    · exact hw _ hty
  declared hn' hd hty := by
    rcases htypes hn' with ⟨n, hn, he, hl⟩ | ⟨hd', -⟩
    · refine h.declared hn ?_ (he ▸ hty)
      rw [Kind.isSome_declares?, ← hl]
      exact Kind.isSome_declares?.1 hd
    · rw [hd'] at hd
      cases hd
  target {i t n' k' ty} hn' hd how hk' hplace hty := by
    obtain ⟨⟨n, hn, he⟩, hlisted⟩ := howned hn' (by rw [hd]; rfl)
    have hparent : ∀ c ∈ n'.kind.children, ∃ k', s'.find? c = some k' ∧ k'.parent = some i := by
      intro c hc
      have := how.2 c hc
      rw [parent?] at this
      exact Option.bind_eq_some_iff.1 this
    obtain ⟨k'', hk'', hp⟩ := hparent t (Kind.mem_children_of_declares? hd)
    obtain rfl : k'' = k' := Option.some.inj (hk''.symm.trans hk')
    obtain ⟨k, hk, -, hl, hkty⟩ := hlisted hk' hp
    refine h.target hn (he ▸ hd) ⟨he ▸ how.1, fun c hc => ?_⟩ hk (hl ▸ hplace) (hkty ▸ hty)
    obtain ⟨c', hc', hp'⟩ := hparent c (he ▸ hc)
    obtain ⟨kc, hkc, hpc, -⟩ := hlisted hc' hp'
    rw [parent?, hkc]
    exact hpc

/-! ## The changes of a store -/

theorem Typed.added {n : Node} (h : s₀.Typed s) (hs : s.Sound) (hid : n.id = s.nextId) (hp : n.parent = none)
    (hd : n.kind.declares? = none) (hty : ∀ ty, n.ty = some ty → s₀.Written ty) : s₀.Typed (s.added n) := by
  refine h.step (fun {i n'} hn' => ?_) fun {i n'} hn' hd' => ⟨?_, fun {c k'} hk' hpk => ⟨k', ?_, hpk, rfl, rfl⟩⟩
  · rw [find?_added hs hid] at hn'
    split_ifs at hn'
    · cases hn'
      exact .inr ⟨hd, hty⟩
    · exact .inl ⟨n', hn', rfl, rfl⟩
  · rw [find?_added hs hid] at hn'
    split_ifs at hn'
    · cases hn'
      rw [hd] at hd'
      cases hd'
    · exact ⟨n', hn', rfl⟩
  · rw [find?_added hs hid] at hk'
    split_ifs at hk'
    · cases hk'
      rw [hp] at hpk
      cases hpk
    · exact hk'

theorem Typed.adopt {owner : NodeId} {m : Node} (h : s₀.Typed s) (hm : s.find? owner = some m)
    (hd : m.kind.declares? = none) (l : List NodeId) : s₀.Typed (s.adopt owner l) := by
  have hfind : ∀ {i n'}, (s.adopt owner l).find? i = some n' →
      ∃ n, s.find? i = some n ∧ n' = if i ∈ l then { n with parent := some owner } else n := by
    intro i n' hn'
    rw [find?_adopt] at hn'
    obtain ⟨n, hn, rfl⟩ := Option.map_eq_some_iff.1 hn'
    exact ⟨n, hn, rfl⟩
  refine h.step (fun hn' => ?_) fun {i n'} hn' hd' => ?_
  · obtain ⟨n, hn, rfl⟩ := hfind hn'
    exact .inl ⟨n, hn, by split_ifs <;> rfl, by split_ifs <;> rfl⟩
  · obtain ⟨n, hn, rfl⟩ := hfind hn'
    have hkind : (if i ∈ l then { n with parent := some owner } else n).kind = n.kind := by split_ifs <;> rfl
    rw [hkind] at hd' ⊢
    have hne : i ≠ owner := by
      rintro rfl
      rw [hm] at hn
      cases hn
      rw [hd] at hd'
      cases hd'
    refine ⟨⟨n, hn, rfl⟩, fun {c k'} hk' hp => ?_⟩
    obtain ⟨k, hk, rfl⟩ := hfind hk'
    split_ifs at hp ⊢
    · exact absurd (Option.some.inj hp).symm hne
    · exact ⟨k, hk, hp, rfl, rfl⟩

/-- A statement gets a place in a list, which no declaration has. -/
theorem Typed.placed {p new : NodeId} {m : Node} {k : Kind} (h : s₀.Typed s) (hm : s.find? p = some m)
    (hl : k.label = m.kind.label) (hd : k.declares? = none) : s₀.Typed (s.placed p k new) := by
  have hfind : ∀ {i n'}, (s.placed p k new).find? i = some n' → ∃ n, s.find? i = some n ∧
      n' = { n with kind := if i = p then k else n.kind, parent := if i = new then some p else n.parent } := by
    intro i n' hn'
    rw [find?_placed] at hn'
    obtain ⟨n, hn, rfl⟩ := Option.map_eq_some_iff.1 hn'
    exact ⟨n, hn, rfl⟩
  have hlabel : ∀ {i n}, s.find? i = some n → (if i = p then k else n.kind).label = n.kind.label := by
    intro i n hn
    split_ifs with hip
    · rw [hip, hm] at hn
      cases hn
      exact hl
    · rfl
  refine h.step (fun {i n'} hn' => ?_) fun {i n'} hn' hd' => ?_
  · obtain ⟨n, hn, rfl⟩ := hfind hn'
    exact .inl ⟨n, hn, rfl, hlabel hn⟩
  · obtain ⟨n, hn, rfl⟩ := hfind hn'
    have hne : i ≠ p := by
      rintro rfl
      simp only [if_true, hd] at hd'
      cases hd'
    refine ⟨⟨n, hn, (if_neg hne).symm⟩, fun {c k'} hk' hp => ?_⟩
    obtain ⟨kc, hkc, rfl⟩ := hfind hk'
    dsimp only at hp ⊢
    split_ifs at hp with hc
    · exact absurd (Option.some.inj hp).symm hne
    · exact ⟨kc, hkc, hp, (hlabel hkc).symm, rfl⟩

theorem Typed.discardAll (h : s₀.Typed s) (stack : List NodeId) : s₀.Typed (s.discardAll stack) := by
  fun_induction Store.discardAll s stack with
  | case1 s => exact h
  | case2 s i stack _ ih => exact ih h
  | case3 s i stack n _ rest ih =>
    have hfind : ∀ {j n'}, rest.find? j = some n' → s.find? j = some n' := by
      intro j n' hn'
      rw [find?_erase] at hn'
      split_ifs at hn'
      exact hn'
    exact ih (h.step (fun hn' => .inl ⟨_, hfind hn', rfl, rfl⟩) fun hn' _ =>
      ⟨⟨_, hfind hn', rfl⟩, fun hk' hp => ⟨_, hfind hk', hp, rfl, rfl⟩⟩)

/-- A change of one type. -/
theorem Typed.update {f : Node → Node} (h : s₀.Typed s) (hid : ∀ m, (f m).id = m.id)
    (hk : ∀ m, (f m).kind = m.kind) (hp : ∀ m, (f m).parent = m.parent)
    (hty : ∀ {n ty}, s.find? i = some n → (f n).ty = some ty →
      s₀.Written ty ∧ (n.kind.declares?.isSome = true ∨ n.kind.label.isPlace = true → s₀.Declared ty)) :
    s₀.Typed (s.update i f) := by
  have hfind : ∀ {j n'}, (s.update i f).find? j = some n' → ∃ n, s.find? j = some n ∧ n' = if j = i then f n
      else n := by
    intro j n' hn'
    rw [find?_update hid] at hn'
    obtain ⟨n, hn, rfl⟩ := Option.map_eq_some_iff.1 hn'
    exact ⟨n, hn, rfl⟩
  have hkind : ∀ j n, (if j = i then f n else n).kind = n.kind := fun j n => by split_ifs <;> simp [hk]
  have hparent : ∀ c, (s.update i f).parent? c = s.parent? c := by
    intro c
    rw [parent?, parent?, find?_update hid]
    cases s.find? c with
    | none => rfl
    | some n =>
      simp only [Option.map_some, Option.bind_some]
      split_ifs <;> simp [hp]
  refine ⟨fun {j n' ty} hn' hty' => ?_, fun {j n' ty} hn' hd hty' => ?_,
    fun {j t n' k' ty} hn' hd how hk' hplace hty' => ?_⟩
  · obtain ⟨n, hn, rfl⟩ := hfind hn'
    split_ifs at hty' with hj
    · subst hj
      exact (hty hn hty').1
    · exact h.types hn hty'
  · obtain ⟨n, hn, rfl⟩ := hfind hn'
    rw [hkind] at hd
    split_ifs at hty' with hj
    · subst hj
      exact (hty hn hty').2 (.inl hd)
    · exact h.declared hn hd hty'
  · obtain ⟨n, hn, rfl⟩ := hfind hn'
    obtain ⟨k, hk, rfl⟩ := hfind hk'
    rw [hkind] at hd how hplace
    split_ifs at hty' with hj
    · subst hj
      exact (hty hk hty').2 (.inr hplace)
    · exact h.target hn hd ⟨how.1, fun c hc => (hparent c).symm.trans (how.2 c hc)⟩ hk hplace hty'

/-- Where `new` may be a target, it has the type of `old`, or another type that a variable may be declared with. -/
def Fills (s₀ s : Store) (old new : NodeId) : Prop :=
  ∀ (m n : Node) (ty : Ty), s.find? old = some m → s.find? new = some n → n.kind.label.isPlace = true →
    n.ty = some ty → s₀.Declared ty ∨ m.kind.label.isPlace = true ∧ m.ty = some ty

theorem Typed.swapped {p old new : NodeId} {m n : Node} {k : Kind} (h : s₀.Typed s) (hfill : s₀.Fills s old new)
    (hn : s.find? old = some n) (hp : n.parent = some p) (hm : s.find? p = some m)
    (hk : m.kind.replaceChild? old new = some k) : s₀.Typed (s.swapped p k old new) := by
  have hfind : ∀ {i n'}, (s.swapped p k old new).find? i = some n' → ∃ n, s.find? i = some n ∧
      n' = { n with
        kind := if i = p then k else n.kind
        parent := if i = old then none else if i = new then some p else n.parent } := by
    intro i n' hn'
    rw [find?_swapped] at hn'
    obtain ⟨n, hn, rfl⟩ := Option.map_eq_some_iff.1 hn'
    exact ⟨n, hn, rfl⟩
  have hlabel : ∀ {i n}, s.find? i = some n → (if i = p then k else n.kind).label = n.kind.label := by
    intro i n hn
    split_ifs with hip
    · rw [hip, hm] at hn
      cases hn
      exact (Kind.spec_of_replaceChild? hk).1
    · rfl
  have hparent : ∀ {c i}, (s.swapped p k old new).parent? c = some i → c ≠ old ∧ (c = new → i = p) ∧
      (c ≠ new → s.parent? c = some i) := by
    intro c i hc
    obtain ⟨n', hn', hi⟩ := Option.bind_eq_some_iff.1 hc
    obtain ⟨n, hn, rfl⟩ := hfind hn'
    dsimp only at hi
    split_ifs at hi with hco hcn
    · exact ⟨hco, fun _ => (Option.some.inj hi).symm, fun h => absurd hcn h⟩
    · exact ⟨hco, fun h => absurd h hcn, fun _ => by rw [parent?, hn]; exact hi⟩
  have hold : s.parent? old = some p := by
    rw [parent?, hn]
    exact hp
  refine ⟨fun hn' hty => ?_, fun {i n' ty} hn' hd hty => ?_, fun {i t n' k' ty} hn' hd how hk' hplace hty => ?_⟩
  · obtain ⟨n, hn, rfl⟩ := hfind hn'
    exact h.types hn hty
  · obtain ⟨n, hn, rfl⟩ := hfind hn'
    refine h.declared hn ?_ hty
    rw [Kind.isSome_declares?, ← hlabel hn]
    exact Kind.isSome_declares?.1 hd
  obtain ⟨n₁, hn₁, rfl⟩ := hfind hn'
  obtain ⟨k₁, hk₁, rfl⟩ := hfind hk'
  dsimp only at hd how hplace hty
  rw [hlabel hk₁] at hplace
  split_ifs at hd how with hip
  · subst hip
    rw [hm] at hn₁
    cases hn₁
    obtain ⟨value, isPublic, rfl⟩ := Kind.declares?_eq_some.1 hd
    obtain ⟨target, value', hmk⟩ : ∃ target value', m.kind = .variableDecl target value' isPublic false false := by
      have hl := (Kind.spec_of_replaceChild? hk).1
      cases hmk : m.kind <;> rw [hmk] at hl <;> simp [Kind.label] at hl
      obtain ⟨rfl, rfl, rfl⟩ := hl
      exact ⟨_, _, rfl⟩
    have hdm : m.kind.declares? = some target := by rw [hmk]; rfl
    rw [hmk, Kind.replaceChild?] at hk
    split_ifs at hk with ht hv
    · -- the target is replaced
      obtain ⟨rfl, rfl⟩ : new = t ∧ value' = value := by simpa using hk
      subst ht
      rcases hfill _ _ _ hn hk₁ hplace hty with hd | ⟨hplace', hty'⟩
      · exact hd
      refine h.target hm hdm ?_ hn hplace' hty'
      rw [hmk]
      cases value' with
      | none => exact ⟨by simp [Kind.children], by simpa [Kind.children] using hold⟩
      | some v =>
        have hne := how.1
        obtain ⟨hvo, -, hpv⟩ := hparent (how.2 v (by simp [Kind.children]))
        simp only [Kind.children, Option.toList_some, List.nodup_cons, List.mem_singleton] at hne
        refine ⟨by simpa [Kind.children] using Ne.symm hvo, ?_⟩
        simpa [Kind.children, hold] using hpv (Ne.symm hne.1)
    · -- the value is replaced
      subst hv
      obtain ⟨rfl, rfl⟩ : target = t ∧ some new = value := by simpa using hk
      have hne := how.1
      obtain ⟨hto, -, hpt⟩ := hparent (how.2 target (by simp [Kind.children]))
      simp only [Kind.children, Option.toList_some, List.nodup_cons, List.mem_singleton] at hne
      refine h.target hm hdm ?_ hk₁ hplace hty
      rw [hmk]
      exact ⟨by simpa [Kind.children] using ht, by simpa [Kind.children, hold] using hpt hne.1⟩
  · refine h.target hn₁ hd ⟨how.1, fun c hc => ?_⟩ hk₁ hplace hty
    obtain ⟨-, hcn, hpc⟩ := hparent (how.2 c hc)
    exact hpc fun hc => hip (hcn hc)

end Store

end ContractTree
