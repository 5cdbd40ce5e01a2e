import ContractTree.Proofs.Ends
import ContractTree.Proofs.Label

/-!
What the changes of a store keep of its names. Nodes that were there keep what they are (`Store.Grew`), every read
of a slot and every assignment that was made since the store was `s₀` binds a temporary of its own, and every name
is one of the source, a temporary, a slot or a key of a getter (`Store.Tidy`). A temporary is spelled after its own
identity, and identities come from a counter that only grows, so it is new unless the source spells a name in the
same way.
-/

namespace ContractTree

namespace Kind

/-- The name that a node spells, as a reference or as an argument. -/
def identifier? : Kind → Option String
  | .name x => some x
  | .arg x => some x
  | _ => none

/-- The target that a read of a slot or an assignment binds. -/
def bound? : Kind → Option NodeId
  | .storageRead target _ _ => some target
  | .assign target _ => some target
  | _ => none

theorem eq_name_of_label {k : Kind} {x : String} (h : k.label = .name x) : k = .name x := by
  have hk := k.kind_label
  rw [h] at hk
  exact hk.symm

theorem bound?_eq (k : Kind) : k.bound? = if k.label = .storageRead ∨ k.label = .assign then k.heads.head?
    else none := by
  cases k <;> simp [bound?, label, heads, children]

theorem mem_children_of_bound? {k : Kind} {t : NodeId} (h : k.bound? = some t) : t ∈ k.children := by
  cases k <;> cases h <;> simp [children]

theorem length_of_replaceFirst? {old new : NodeId} {xs ys : List NodeId} (h : replaceFirst? old new xs = some ys) :
    ys.length = xs.length := by
  induction xs generalizing ys with
  | nil => cases h
  | cons x xs ih =>
    rw [replaceFirst?] at h
    split_ifs at h
    · cases h
      rfl
    · obtain ⟨zs, hz, rfl⟩ := Option.map_eq_some_iff.1 h
      rw [List.length_cons, ih hz, List.length_cons]

theorem head?_of_replaceFirst? {old new : NodeId} {xs ys : List NodeId} (h : replaceFirst? old new xs = some ys) :
    ys.head? = xs.head? ∨ xs.head? = some old := by
  cases xs with
  | nil => cases h
  | cons x xs =>
    rw [replaceFirst?] at h
    split_ifs at h with hx
    · exact .inr (congrArg some hx)
    · obtain ⟨zs, -, rfl⟩ := Option.map_eq_some_iff.1 h
      exact .inl rfl

variable {k k' : Kind} {old new anchor : NodeId}

/-- A child that is replaced is the bound target, or the bound target stays. -/
theorem spec_of_replaceChild? (h : k.replaceChild? old new = some k') :
    k'.label = k.label ∧ (k'.bound? = k.bound? ∨ k.bound? = some old) := by
  have hfits := k.fits
  rw [replaceChild?_eq, Option.or_eq_some_iff, Option.or_eq_some_iff] at h
  simp only [Option.map_eq_some_iff] at h
  rcases h with ⟨hs, hh, rfl⟩ | ⟨-, ⟨bs, hb, rfl⟩ | ⟨-, os, ho, rfl⟩⟩
  · obtain ⟨hl, hheads, -⟩ := Label.parts_kind (length_of_replaceFirst? hh ▸ hfits)
    refine ⟨hl, ?_⟩
    rw [bound?_eq, bound?_eq k, hl, hheads]
    split_ifs
    · exact head?_of_replaceFirst? hh
    · exact .inl rfl
  · obtain ⟨hl, hheads, -⟩ := Label.parts_kind (length_of_replaceFirst? hb ▸ hfits)
    exact ⟨hl, .inl (by rw [bound?_eq, bound?_eq k, hl, hheads])⟩
  · obtain ⟨hl, hheads, -⟩ := Label.parts_kind (length_of_replaceFirst? ho ▸ hfits)
    exact ⟨hl, .inl (by rw [bound?_eq, bound?_eq k, hl, hheads])⟩

theorem spec_of_insertStatement? (h : k.insertStatement? new anchor = some k') :
    k'.label = k.label ∧ k'.bound? = k.bound? := by
  cases k <;> simp only [insertStatement?, Option.or_eq_some_iff, Option.map_eq_some_iff, reduceCtorEq] at h
  case ifElse =>
    rcases h with ⟨_, -, rfl⟩ | ⟨-, _, -, rfl⟩ <;> exact ⟨rfl, rfl⟩
  all_goals
    obtain ⟨_, -, rfl⟩ := h
    exact ⟨rfl, rfl⟩

end Kind

namespace Store

/-! ## What stays -/

/-- Whatever is left of the nodes of `s` is what it was, and no identity was handed out again. -/
structure Grew (s s' : Store) : Prop where
  next : s.nextId ≤ s'.nextId
  label : ∀ {i n'}, i < s.nextId → s'.find? i = some n' → ∃ n, s.find? i = some n ∧ n'.kind.label = n.kind.label

theorem Grew.refl (s : Store) : s.Grew s := ⟨Nat.le_refl _, fun _ h => ⟨_, h, rfl⟩⟩

theorem Grew.trans {s t u : Store} (h : s.Grew t) (h' : t.Grew u) : s.Grew u where
  next := Nat.le_trans h.next h'.next
  label hi hn' := by
    obtain ⟨n, hn, hl⟩ := h'.label (Nat.lt_of_lt_of_le hi h.next) hn'
    obtain ⟨m, hm, hl'⟩ := h.label hi hn
    exact ⟨m, hm, hl.trans hl'⟩

/-- A name that the pass may write into a store that was `s₀` at first. -/
inductive Spelled (s₀ : Store) : String → Prop where
  | source {n : Node} {x : String} (hn : n ∈ s₀.nodes) (hx : n.kind.identifier? = some x) : Spelled s₀ x
  | temp {i : NodeId} (hi : s₀.nextId ≤ i) : Spelled s₀ (tempName i)
  | slot (x : String) : Spelled s₀ (x ++ "_STORAGE")
  | key (i : Nat) : Spelled s₀ ("key" ++ toString i)

/-- The identity was handed out, and the node that has it, if it is still there, has a label of `P`. -/
structure Labelled (s : Store) (i : NodeId) (P : Label → Prop) : Prop where
  below : i < s.nextId
  label : ∀ {n}, s.find? i = some n → P n.kind.label

/-- A temporary that was made after `s₀`. -/
structure Temp (s₀ s : Store) (i : NodeId) : Prop where
  fresh : s₀.nextId ≤ i
  named : s.Labelled i (· = .name (tempName i))

/-- What the pass keeps true of its store, which was `s₀` at first. -/
structure Tidy (s₀ s : Store) : Prop where
  sound : s.Sound
  grew : s₀.Grew s
  bound : ∀ {i n target}, s.find? i = some n → s₀.nextId ≤ i → n.kind.bound? = some target → s₀.Temp s target
  names : ∀ {i n x}, s.find? i = some n → n.kind.label = .name x → s₀.Spelled x

variable {s₀ s s' : Store} {i : NodeId} {P Q : Label → Prop}

theorem Labelled.mono (h : s.Labelled i P) (hg : s.Grew s') : s'.Labelled i P where
  below := Nat.lt_of_lt_of_le h.below hg.next
  label hn' := by
    obtain ⟨n, hn, hl⟩ := hg.label h.below hn'
    rw [hl]
    exact h.label hn

theorem Labelled.imp (h : s.Labelled i P) (hPQ : ∀ l, P l → Q l) : s.Labelled i Q :=
  ⟨h.below, fun hn => hPQ _ (h.label hn)⟩

theorem Temp.mono (h : s₀.Temp s i) (hg : s.Grew s') : s₀.Temp s' i := ⟨h.fresh, h.named.mono hg⟩

theorem Tidy.refl (h : s.Sound) : s.Tidy s where
  sound := h
  grew := .refl s
  bound hn hi _ := absurd (h.below _ (mem_ids_of_find? hn)) (Nat.not_lt.2 hi)
  names hn hx := .source (mem_of_find? hn) (by rw [Kind.eq_name_of_label hx]; rfl)

/-- A change is tidy if every node is as before, or binds and spells what it may. -/
theorem Tidy.step (h : s₀.Tidy s) (hs : s'.Sound) (hg : s.Grew s')
    (hn : ∀ {i n'}, s'.find? i = some n' →
      (∃ n, s.find? i = some n ∧ n'.kind.label = n.kind.label ∧ n'.kind.bound? = n.kind.bound?) ∨
      (s₀.nextId ≤ i → ∀ t, n'.kind.bound? = some t → s₀.Temp s' t) ∧ ∀ x, n'.kind.label = .name x →
      s₀.Spelled x) :
    s₀.Tidy s' ∧ s.Grew s' := by
  refine ⟨⟨hs, h.grew.trans hg, fun hi hid hb => ?_, fun hi hx => ?_⟩, hg⟩
  · rcases hn hi with ⟨n, hn, hl, hb'⟩ | hn
    · exact (h.bound hn hid (hb' ▸ hb)).mono hg
    · exact hn.1 hid _ hb
  · rcases hn hi with ⟨n, hn, hl, -⟩ | hn
    · exact h.names hn (hl ▸ hx)
    · exact hn.2 _ hx

/-- What the store has and had not at first has an identity that was handed out since. -/
theorem Tidy.le_of_new (h : s₀.Tidy s) (hi : i ∈ s.ids) (hnew : i ∉ s₀.ids) : s₀.nextId ≤ i := by
  by_contra hlt
  obtain ⟨n, hn⟩ := Option.isSome_iff_exists.1 (contains_iff.2 hi)
  obtain ⟨n₀, hn₀, -⟩ := h.grew.label (Nat.lt_of_not_le hlt) hn
  exact hnew (mem_ids_of_find? hn₀)

/-! ## The changes of a store -/

/-- A change that leaves every node the kind it has. -/
theorem Tidy.same (h : s₀.Tidy s) (hs : s'.Sound) (hnext : s'.nextId = s.nextId)
    (hk : ∀ {i n'}, s'.find? i = some n' → ∃ n, s.find? i = some n ∧ n'.kind = n.kind) :
    s₀.Tidy s' ∧ s.Grew s' := by
  refine h.step hs ⟨hnext ▸ Nat.le_refl _, fun _ hn' => ?_⟩ fun hn' => ?_
  · obtain ⟨n, hn, he⟩ := hk hn'
    exact ⟨n, hn, by rw [he]⟩
  · obtain ⟨n, hn, he⟩ := hk hn'
    exact .inl ⟨n, hn, by rw [he], by rw [he]⟩

theorem Tidy.added {n : Node} (h : s₀.Tidy s) (hlt : s.nextId.next?.isSome) (hid : n.id = s.nextId)
    (hb : ∀ t, n.kind.bound? = some t → s₀.Temp s t) (hx : ∀ x, n.kind.label = .name x → s₀.Spelled x) :
    s₀.Tidy (s.added n) ∧ s.Grew (s.added n) := by
  have hg : s.Grew (s.added n) := by
    refine ⟨Nat.le_of_lt (nextId_lt_added hlt), fun {i n'} hi hn' => ⟨n', ?_, rfl⟩⟩
    have hne : i ≠ s.nextId := fun he => Nat.lt_irrefl _ (he ▸ hi)
    rwa [find?_added h.sound hid, if_neg hne] at hn'
  refine h.step (h.sound.added hid hlt) hg fun {i n'} hn' => ?_
  rw [find?_added h.sound hid] at hn'
  split_ifs at hn'
  · cases hn'
    exact .inr ⟨fun _ t ht => (hb t ht).mono hg, hx⟩
  · exact .inl ⟨n', hn', rfl, rfl⟩

theorem Tidy.adopt (h : s₀.Tidy s) (owner : NodeId) (l : List NodeId) :
    s₀.Tidy (s.adopt owner l) ∧ s.Grew (s.adopt owner l) := by
  refine h.same (h.sound.of_ids (by simp) rfl rfl) rfl fun {i n'} hn' => ?_
  rw [find?_adopt] at hn'
  obtain ⟨n, hn, rfl⟩ := Option.map_eq_some_iff.1 hn'
  exact ⟨n, hn, by split_ifs <;> rfl⟩

/-- A node is replaced that is no name, and so no target of a statement that was made. -/
theorem Tidy.swapped {p old new : NodeId} {m : Node} {k : Kind} (h : s₀.Tidy s)
    (hold : s.Labelled old (∀ x, · ≠ .name x)) (hmem : old ∈ s.ids) (hm : s.find? p = some m)
    (hk : m.kind.replaceChild? old new = some k) :
    s₀.Tidy (s.swapped p k old new) ∧ s.Grew (s.swapped p k old new) := by
  obtain ⟨hl, hb⟩ := Kind.spec_of_replaceChild? hk
  have hfind : ∀ {i n'}, (s.swapped p k old new).find? i = some n' →
      ∃ n, s.find? i = some n ∧ n'.kind = if i = p then k else n.kind := by
    intro i n' hn'
    rw [find?_swapped] at hn'
    obtain ⟨n, hn, rfl⟩ := Option.map_eq_some_iff.1 hn'
    exact ⟨n, hn, rfl⟩
  refine h.step (h.sound.swapped hmem) ⟨Nat.le_refl _, fun {i n'} _ hn' => ?_⟩ fun {i n'} hn' => ?_
  all_goals
    obtain ⟨n, hn, he⟩ := hfind hn'
    split_ifs at he with hip
  · rw [hip, hm] at hn
    cases hn
    exact ⟨m, hip ▸ hm, by rw [he, hl]⟩
  · exact ⟨n, hn, by rw [he]⟩
  · rw [hip, hm] at hn
    cases hn
    rcases hb with hb | hb
    · exact .inl ⟨m, hip ▸ hm, by rw [he, hl], by rw [he, hb]⟩
    · refine .inr ⟨fun hi => ?_, fun x hx => h.names hm (by rw [← hl, ← he, hx])⟩
      obtain ⟨no, hno⟩ := Option.isSome_iff_exists.1 (contains_iff.2 hmem)
      exact absurd ((h.bound hm (hip ▸ hi) hb).named.label hno) (hold.label hno _)
  · exact .inl ⟨n, hn, by rw [he], by rw [he]⟩

theorem Tidy.placed {p new : NodeId} {m : Node} {k : Kind} (h : s₀.Tidy s) (hm : s.find? p = some m)
    (hk : k.label = m.kind.label ∧ k.bound? = m.kind.bound?) :
    s₀.Tidy (s.placed p k new) ∧ s.Grew (s.placed p k new) := by
  have hfind : ∀ {i n'}, (s.placed p k new).find? i = some n' →
      ∃ n, s.find? i = some n ∧ n'.kind.label = n.kind.label ∧ n'.kind.bound? = n.kind.bound? := by
    intro i n' hn'
    rw [find?_placed] at hn'
    obtain ⟨n, hn, rfl⟩ := Option.map_eq_some_iff.1 hn'
    refine ⟨n, hn, ?_⟩
    dsimp only
    split_ifs with hip
    · rw [hip, hm] at hn
      cases hn
      exact hk
    · exact ⟨rfl, rfl⟩
  refine h.step (h.sound.of_ids (by simp) rfl rfl) ⟨Nat.le_refl _, fun _ hn' => ?_⟩ fun hn' => .inl (hfind hn')
  obtain ⟨n, hn, hl, -⟩ := hfind hn'
  exact ⟨n, hn, hl⟩

theorem Tidy.discardAll (h : s₀.Tidy s) (stack : List NodeId) :
    s₀.Tidy (s.discardAll stack) ∧ s.Grew (s.discardAll stack) := by
  fun_induction Store.discardAll s stack with
  | case1 s => exact ⟨h, .refl s⟩
  | case2 s i stack _ ih => exact ih h
  | case3 s i stack n _ rest ih =>
    have hrest := h.same (h.sound.erase i) rfl fun {j n'} hn' => by
      rw [find?_erase] at hn'
      split_ifs at hn'
      exact ⟨n', hn', rfl⟩
    obtain ⟨htidy, hgrew⟩ := ih hrest.1
    exact ⟨htidy, hrest.2.trans hgrew⟩

/-- A change of a node that keeps its kind. -/
theorem Tidy.update {f : Node → Node} (h : s₀.Tidy s) (hid : ∀ m, (f m).id = m.id) (hk : ∀ m, (f m).kind = m.kind)
    (i : NodeId) : s₀.Tidy (s.update i f) ∧ s.Grew (s.update i f) := by
  refine h.same (h.sound.of_ids (ids_update hid i) rfl rfl) rfl fun {j n'} hn' => ?_
  rw [find?_update hid] at hn'
  obtain ⟨n, hn, rfl⟩ := Option.map_eq_some_iff.1 hn'
  exact ⟨n, hn, by split_ifs <;> simp [hk]⟩

end Store

end ContractTree
