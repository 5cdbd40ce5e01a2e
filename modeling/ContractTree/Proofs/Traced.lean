import ContractTree.Proofs.Consistency
import ContractTree.Proofs.Typed

/-!
Where the names and types of a lowered store come from. The work of the pass is followed edit by edit
(`Lower.Tidies`): each edit keeps the store tidy (`Store.Tidy`) and its types accounted for (`Store.Typed`), with
the catalog listing only variables that the store declared at first. What is proved of each function of the pass is
put together for one visit (`Lowering.tidies_dispatch`) and so for a whole run (`Lowering.run_traced`).
-/

namespace ContractTree

open Lowering (Progress)

namespace Store

/-- The nodes are still there, with their kinds and types. -/
def Kept (s s' : Store) : Prop := ∀ j n, s.find? j = some n → ∃ n', s'.find? j = some n' ∧ n'.kind = n.kind ∧
    n'.ty = n.ty

theorem Kept.trans {s t u : Store} (h : s.Kept t) (h' : t.Kept u) : s.Kept u := by
  intro j n hn
  obtain ⟨n₁, hn₁, hk₁, ht₁⟩ := h j n hn
  obtain ⟨n₂, hn₂, hk₂, ht₂⟩ := h' j n₁ hn₁
  exact ⟨n₂, hn₂, hk₂.trans hk₁, ht₂.trans ht₁⟩

/-- A node of this kind and type was made. -/
structure Made (s s' : Store) (k : Kind) (ty : Option Ty) (i : NodeId) : Prop where
  kept : s.Kept s'
  node : ∃ n, s'.find? i = some n ∧ n.kind = k ∧ n.ty = ty

theorem Made.labelled {s s' : Store} {k : Kind} {ty : Option Ty} {i : NodeId} {P : Label → Prop}
    (h : s.Made s' k ty i) (hs : s'.Sound) (hP : P k.label) : s'.Labelled i P := by
  obtain ⟨n, hn, hk, -⟩ := h.node
  refine ⟨hs.below i (mem_ids_of_find? hn), fun hn' => ?_⟩
  obtain rfl := Option.some.inj (hn.symm.trans hn')
  exact hk ▸ hP

variable {s₀ s s' : Store} {i : NodeId}

theorem Typed.ty? (h : s₀.Typed s) {ty : Ty} (hty : s.ty? i = some ty) : s₀.Written ty := by
  obtain ⟨n, hn, hty⟩ := Option.bind_eq_some_iff.1 hty
  exact h.types hn hty

end Store

/-! ## Work that keeps track of names and types -/

/-- The store is tidy and its types are accounted for, as is every variable in the catalog. -/
structure Lower.Traced (s₀ : Store) (w : Workspace Progress) : Prop where
  tidy : s₀.Tidy w.store
  typed : s₀.Typed w.store
  catalog : ∀ v ∈ w.own.catalog, s₀.Declared v.declared

namespace Lower

variable {α β : Type} {s₀ : Store} {w : Workspace Progress}

/-- The work keeps the workspace traced, and leaves `Q` if it succeeds. -/
def Tidies (s₀ : Store) (x : Lower α) (w : Workspace Progress) (Q : α → Store → Prop) : Prop :=
  Traced s₀ w → Ends x w (fun a w' => (Traced s₀ w' ∧ w.store.Grew w'.store) ∧ Q a w'.store) fun _ _ => True

theorem Tidies.bind {x : Lower α} {f : α → Lower β} {Q : α → Store → Prop} {R : β → Store → Prop}
    (hx : Tidies s₀ x w Q) (hf : ∀ a w', Traced s₀ w' → w.store.Grew w'.store → Q a w'.store →
      Tidies s₀ (f a) w' R) :
    Tidies s₀ (x >>= f) w R := by
  intro h
  rw [ends_bind]
  refine (hx h).mono (fun a w' ⟨⟨ht, hg⟩, hq⟩ => ?_) fun _ _ h => h
  exact (hf a w' ht hg hq ht).mono (fun b w'' ⟨⟨ht', hg'⟩, hr⟩ => ⟨⟨ht', hg.trans hg'⟩, hr⟩) fun _ _ h => h

theorem Tidies.mono {x : Lower α} {Q R : α → Store → Prop} (hx : Tidies s₀ x w Q) (h : ∀ a s, Q a s → R a s) :
    Tidies s₀ x w R :=
  fun ht => (hx ht).mono (fun a w' hq => ⟨hq.1, h a w'.store hq.2⟩) fun _ _ h => h

theorem tidies_pure {a : α} {Q : α → Store → Prop} (h : Q a w.store) : Tidies s₀ (pure a) w Q :=
  fun ht => ⟨⟨ht, .refl _⟩, h⟩

theorem tidies_throw {e : PassError} {Q : α → Store → Prop} : Tidies s₀ (throw e) w Q := fun _ => trivial

theorem tidies_count (f : Lowering.Stats → Lowering.Stats) : Tidies s₀ (count f) w fun _ _ => True := by
  intro ht
  unfold count
  rw [ends_modify]
  exact ⟨⟨⟨ht.tidy, ht.typed, ht.catalog⟩, .refl _⟩, trivial⟩

theorem tidies_modifyCatalog {f : Catalog → Catalog}
    (hf : Traced s₀ w → ∀ v ∈ f w.own.catalog, s₀.Declared v.declared) :
    Tidies s₀ (modifyCatalog f) w fun _ s => s = w.store := by
  intro ht
  unfold modifyCatalog
  rw [ends_modify]
  exact ⟨⟨⟨ht.tidy, ht.typed, hf ht⟩, .refl _⟩, rfl⟩

theorem tidies_catalog : Tidies s₀ catalog w fun c _ => ∀ v ∈ c, s₀.Declared v.declared :=
  fun ht => ⟨⟨ht, .refl _⟩, ht.catalog⟩

theorem tidies_store : Tidies s₀ Work.store w fun s s' => s = w.store ∧ s' = w.store :=
  fun ht => ⟨⟨ht, .refl _⟩, rfl, rfl⟩

theorem tidies_ask {f : Store → Catalog → Except LoweringError α} : Tidies s₀ (ask f) w fun a s' =>
    s' = w.store ∧ ∃ c : Catalog, (∀ v ∈ c, s₀.Declared v.declared) ∧ f w.store c = .ok a := by
  intro ht
  unfold ask
  rw [ends_bind, ends_get]
  cases h : f w.store w.own.catalog with
  | ok a => exact ⟨⟨ht, .refl _⟩, rfl, _, ht.catalog, h⟩
  | error e => trivial

/-- An edit that makes a tidy change. -/
theorem tidies_edit {e : Edit α} {R : α → Store → Prop} {E : StructuralError → Store → Prop} {Q : α → Store → Prop}
    (he : Ends e w.store R E)
    (h : Traced s₀ w → ∀ a s', R a s' → (s₀.Tidy s' ∧ w.store.Grew s') ∧ s₀.Typed s' ∧ Q a s') :
    Tidies s₀ (edit e) w Q := by
  intro ht
  unfold Ends at he
  rw [Ends, edit_apply]
  cases hs : e w.store with
  | ok a s' =>
    rw [hs] at he
    obtain ⟨⟨htidy, hg⟩, htyped, hq⟩ := h ht a s' he
    exact ⟨⟨⟨htidy, htyped, ht.catalog⟩, hg⟩, hq⟩
  | error err s' => trivial

/-- Edits that do the same here. -/
theorem Tidies.congr {e e' : Edit α} {Q : α → Store → Prop} (h : Tidies s₀ (edit e) w Q)
    (he : e' w.store = e w.store) : Tidies s₀ (edit e') w Q := by
  unfold Tidies Ends at h ⊢
  rwa [edit_apply, he, ← edit_apply]

theorem tidies_node (i : NodeId) : Tidies s₀ (edit (Edit.node i)) w fun n s' => s' = w.store ∧
    s'.find? i = some n :=
  tidies_edit Edit.ends_node fun ht _ _ ⟨hs, hn⟩ => by
    subst hs
    exact ⟨⟨ht.tidy, .refl _⟩, ht.typed, rfl, hn⟩

theorem tidies_forM {f : NodeId → Lower Unit} (hf : ∀ i w, Tidies s₀ (f i) w fun _ _ => True) (l : List NodeId) :
    Tidies s₀ (l.forM f) w fun _ _ => True := by
  induction l generalizing w with
  | nil => exact tidies_pure trivial
  | cons i l ih => exact (hf i w).bind fun _ _ _ _ _ => ih

/-! ## Nodes that are made -/

/-- A kind that the pass may give a new node. -/
structure Allowed (s₀ s : Store) (k : Kind) : Prop where
  bound : ∀ t, k.bound? = some t → s₀.Temp s t
  names : ∀ x, k.label = .name x → s₀.Spelled x
  declares : k.declares? = none

theorem allowed_name {s : Store} {x : String} (h : s₀.Spelled x) : Allowed s₀ s (.name x) where
  bound := by simp [Kind.bound?]
  names y hy := by
    obtain rfl : x = y := by simpa [Kind.label] using hy
    exact h
  declares := rfl

theorem allowed_plain {s : Store} {k : Kind} (hb : k.bound? = none) (hx : k.label.isPlace = false)
    (hd : k.declares? = none) : Allowed s₀ s k where
  bound := by simp [hb]
  names x hl := by
    rw [hl] at hx
    cases hx
  declares := hd

theorem kept_added {s : Store} {n : Node} (hs : s.Sound) (hid : n.id = s.nextId) : s.Kept (s.added n) := by
  intro j m hm
  refine ⟨m, ?_, rfl, rfl⟩
  have hne : j ≠ s.nextId := fun he => hs.fresh (he ▸ Store.mem_ids_of_find? hm)
  rw [Store.find?_added hs hid, if_neg hne, hm]

theorem kept_adopt {s : Store} (owner : NodeId) (l : List NodeId) : s.Kept (s.adopt owner l) := by
  intro j m hm
  rw [Store.find?_adopt, hm]
  exact ⟨_, rfl, by split_ifs <;> rfl, by split_ifs <;> rfl⟩

theorem tidies_insertNew {k : NodeId → Kind} {ty : Option Ty}
    (hk : Traced s₀ w → Allowed s₀ w.store (k w.store.nextId))
    (hty : Traced s₀ w → ∀ t, ty = some t → s₀.Written t) :
    Tidies s₀ (edit (Edit.insertNew k ty)) w fun i s => i = w.store.nextId ∧ w.store.Made s (k i) ty i := by
  refine tidies_edit (Edit.ends_insertNew k ty) ?_
  rintro ht _ _ ⟨rfl, hlt, rfl⟩
  have hs := ht.tidy.sound
  refine ⟨ht.tidy.added hlt rfl (hk ht).bound (hk ht).names, ht.typed.added hs rfl rfl (hk ht).declares (hty ht),
    rfl, kept_added hs rfl, ?_⟩
  rw [Store.find?_added hs rfl, if_pos rfl]
  exact ⟨_, rfl, rfl, rfl⟩

theorem tidies_leaf {k : Kind} {ty : Option Ty} (hk : Allowed s₀ w.store k)
    (hty : Traced s₀ w → ∀ t, ty = some t → s₀.Written t) :
    Tidies s₀ (edit (Edit.leaf k ty)) w fun i s => w.store.Made s k ty i :=
  (tidies_insertNew (fun _ => hk) hty).mono fun _ _ h => h.2

theorem tidies_temp {ty : Option Ty} (hty : Traced s₀ w → ∀ t, ty = some t → s₀.Written t) :
    Tidies s₀ (edit (Edit.temp ty)) w fun i s => s₀.Temp s i ∧ w.store.Made s (.name (tempName i)) ty i := by
  intro ht
  have hfresh : s₀.nextId ≤ w.store.nextId := ht.tidy.grew.next
  refine (tidies_insertNew (fun _ => allowed_name (.temp hfresh)) hty ht).mono ?_ fun _ _ h => h
  rintro i w' ⟨hw', rfl, hmade⟩
  exact ⟨hw', ⟨hfresh, hmade.labelled hw'.1.tidy.sound rfl⟩, hmade⟩

theorem tidies_alloc {k : Kind} {t : Option Ty} (hk : Traced s₀ w → Allowed s₀ w.store k)
    (hty : Traced s₀ w → ∀ ty, t = some ty → s₀.Written ty) :
    Tidies s₀ (edit (Edit.alloc k t)) w fun i s => w.store.Made s k t i := by
  refine tidies_edit (Edit.ends_alloc k t) ?_
  rintro ht _ _ ⟨rfl, hlt, -, rfl⟩
  have hs := ht.tidy.sound
  let n : Node := { id := w.store.nextId, ty := t, kind := k }
  have hadd := ht.tidy.added (n := n) hlt rfl (hk ht).bound (hk ht).names
  have hadopt := hadd.1.adopt w.store.nextId k.children
  have hfind : (w.store.added n).find? w.store.nextId = some n := by rw [Store.find?_added hs rfl, if_pos rfl]
  have htyped : s₀.Typed (w.store.added n) := ht.typed.added hs rfl rfl (hk ht).declares (hty ht)
  refine ⟨⟨hadopt.1, hadd.2.trans hadopt.2⟩, htyped.adopt hfind (hk ht).declares _,
    (kept_added hs (n := n) rfl).trans (kept_adopt _ _), ?_⟩
  obtain ⟨n', hn', hk', hty'⟩ := kept_adopt w.store.nextId k.children _ _ hfind
  exact ⟨n', hn', hk', hty'⟩

/-! ## Changes of place and of type -/

theorem tidies_replace {old new : NodeId} (h : w.store.Labelled old (∀ x, · ≠ .name x))
    (hfill : s₀.Fills w.store old new) : Tidies s₀ (edit (Edit.replace old new)) w fun _ _ => True := by
  refine tidies_edit Edit.ends_replace ?_
  rintro ht _ _ ⟨n, p, m, k, hn, hp, -, hm, hk, rfl⟩
  exact ⟨ht.tidy.swapped h (Store.mem_ids_of_find? hn) hm hk, ht.typed.swapped hfill hn hp hm hk, trivial⟩

theorem fills_of_labelled {s : Store} {old new : NodeId} (h : s.Labelled new (·.isPlace = false)) :
    s₀.Fills s old new := by
  intro m n ty _ hn hplace _
  rw [h.label hn] at hplace
  cases hplace

theorem tidies_insertBefore (stmt anchor block : NodeId) :
    Tidies s₀ (edit (Edit.insertBefore stmt anchor block)) w fun _ _ => True := by
  refine tidies_edit (Edit.ends_insertBefore stmt anchor block) ?_
  rintro ht _ _ ⟨b, k, -, hb, hk, rfl⟩
  have hspec := Kind.spec_of_insertStatement? hk
  refine ⟨ht.tidy.placed hb hspec, ht.typed.placed hb hspec.1 ?_, trivial⟩
  -- a declaration has no list of statements
  cases hd : k.declares? with
  | none => rfl
  | some t =>
    obtain ⟨value, isPublic, rfl⟩ := Kind.declares?_eq_some.1 hd
    cases hbk : b.kind <;> rw [hbk] at hspec hk <;> simp [Kind.label] at hspec
    simp [Kind.insertStatement?] at hk

theorem tidies_appendDeclaration (module decl : NodeId) :
    Tidies s₀ (edit (Edit.appendDeclaration module decl)) w fun _ _ => True := by
  refine tidies_edit (Edit.ends_appendDeclaration module decl) ?_
  rintro ht _ _ ⟨b, body, -, hb, hk, rfl⟩
  exact ⟨ht.tidy.placed hb (by rw [hk]; exact ⟨rfl, rfl⟩), ht.typed.placed hb (by rw [hk]; rfl) rfl, trivial⟩

theorem tidies_discard (i : NodeId) : Tidies s₀ (edit (Edit.discard i)) w fun _ _ => True := by
  refine tidies_edit Edit.ends_discard ?_
  rintro ht _ _ ⟨-, rfl⟩
  exact ⟨ht.tidy.discardAll [i], ht.typed.discardAll [i], trivial⟩

/-- The type of one node changes. -/
theorem tidies_retype {g : Option Ty → Option Ty} {i : NodeId}
    (hty : ∀ {n ty}, w.store.find? i = some n → g n.ty = some ty →
      s₀.Written ty ∧ (n.kind.declares?.isSome = true ∨ n.kind.label.isPlace = true → s₀.Declared ty)) :
    Tidies s₀ (edit (Edit.updateNode i fun n => { n with ty := g n.ty })) w fun _ _ => True := by
  have he : Ends (Edit.updateNode i fun n => { n with ty := g n.ty }) w.store
      (fun _ s' => s' = w.store.update i fun n => { n with ty := g n.ty }) fun _ _ => True := by
    unfold Edit.updateNode
    rw [ends_bind]
    refine Edit.ends_node.mono ?_ fun _ _ _ => trivial
    rintro _ _ ⟨rfl, -⟩
    exact ends_modify.2 rfl
  refine tidies_edit he ?_
  rintro ht _ _ rfl
  let f (n : Node) : Node := { n with ty := g n.ty }
  exact ⟨ht.tidy.update (f := f) (fun _ => rfl) (fun _ => rfl) i,
    ht.typed.update (f := f) (fun _ => rfl) (fun _ => rfl) (fun _ => rfl) hty, trivial⟩

/-! ## Reads -/

theorem tidies_slotName {v : StorageVar} (hv : s₀.Declared v.declared) :
    Tidies s₀ (slotName v) w fun _ _ => True := by
  refine (tidies_leaf (allowed_name (.slot v.name)) fun _ t ht => ?_).mono fun _ _ _ => trivial
  obtain rfl : v.slotTy = t := by simpa using ht
  exact .slot hv

theorem tidies_reference {temp : NodeId} {ty : Option Ty} (h : s₀.Temp w.store temp)
    (hty : Traced s₀ w → ∀ t, ty = some t → s₀.Written t) :
    Tidies s₀ (edit (Build.name (tempName temp) ty)) w fun i s => w.store.Made s (.name (tempName temp)) ty i :=
  tidies_leaf (allowed_name (.temp h.fresh)) hty

theorem tidies_storageRead {temp slot : NodeId} {keys : List NodeId} (h : s₀.Temp w.store temp) :
    Tidies s₀ (edit (Build.storageRead temp slot keys)) w fun _ s => w.store.Kept s :=
  have halloc := tidies_alloc (w := w) (k := .storageRead temp slot keys) (t := w.store.ty? temp)
    (fun _ => ⟨by simpa [Kind.bound?] using h, by simp [Kind.label], rfl⟩) fun ht _ => ht.typed.ty?
  (halloc.congr rfl).mono fun _ _ hmade => hmade.kept

/-- What is known of an access: its variable is one that was declared, and its outermost node is no name, but where
a name may be. -/
structure Reached (s₀ s : Store) (a : Access) : Prop where
  var : s₀.Declared a.var.declared
  top : s.Labelled a.top fun l => l.isPlace = true ∧ ∀ x, l ≠ .name x

theorem Reached.mono {s s' : Store} {a : Access} (h : Reached s₀ s a) (hg : s.Grew s') : Reached s₀ s' a :=
  ⟨h.var, h.top.mono hg⟩

theorem written_value {v : StorageVar} (hv : s₀.Declared v.declared) :
    ∀ t, some v.value = some t → s₀.Written t := by
  intro t ht
  obtain rfl := Option.some.inj ht
  exact .value hv

theorem written_getD {v : StorageVar} {s : Store} (hs : s₀.Typed s) (hv : s₀.Declared v.declared) (i : NodeId) :
    ∀ t, some ((s.ty? i).getD v.value) = some t → s₀.Written t := by
  intro t ht
  cases hty : s.ty? i with
  | none =>
    rw [hty] at ht
    exact written_value hv t ht
  | some ty =>
    rw [hty] at ht
    obtain rfl := Option.some.inj ht
    exact hs.ty? hty

/-- The reference that replaces an access has its type, or the type of the variable's values. -/
theorem fills_reference {s s' s'' : Store} {a : Access} {k : Kind} {reference : NodeId} (ha : Reached s₀ s'' a)
    (hkept : s.Kept s') (hmade : s'.Made s'' k (some ((s.ty? a.top).getD a.var.value)) reference) :
    s₀.Fills s'' a.top reference := by
  intro m n ty hm hn _ hty
  obtain ⟨n', hn', -, hty'⟩ := hmade.node
  obtain rfl := Option.some.inj (hn.symm.trans hn')
  rw [hty'] at hty
  cases htop : s.find? a.top with
  | none =>
    rw [Store.ty?, htop] at hty
    obtain rfl := Option.some.inj hty
    exact .inl ha.var.value
  | some m₀ =>
    obtain ⟨m', hm', -, hmty⟩ := (hkept.trans hmade.kept) _ _ htop
    obtain rfl := Option.some.inj (hm.symm.trans hm')
    rw [Store.ty?, htop, Option.bind_some] at hty
    cases hty₀ : m₀.ty with
    | none =>
      rw [hty₀] at hty
      obtain rfl := Option.some.inj hty
      exact .inl ha.var.value
    | some ty₀ =>
      rw [hty₀] at hty
      obtain rfl := Option.some.inj hty
      exact .inr ⟨(ha.top.label hm).1, hmty.trans hty₀⟩

theorem tidies_hoist {lowerKey : NodeId → Lower Unit} {a : Access} {site : Site}
    (hkey : ∀ i w, Tidies s₀ (lowerKey i) w fun _ _ => True) (ha : Reached s₀ w.store a) :
    Tidies s₀ (hoist lowerKey a site) w fun _ _ => True := by
  unfold hoist
  refine (tidies_forM hkey _).bind fun _ w₁ _ hg₁ _ => ?_
  refine tidies_store.bind fun s w₂ hw₂ hg₂ ⟨hs, hs₂⟩ => ?_
  obtain rfl : s = w₂.store := hs.trans hs₂.symm
  have hwritten := written_getD hw₂.typed ha.var a.top
  refine (tidies_temp fun _ => hwritten).bind fun temp w₃ _ hg₃ ⟨htemp, hmade₃⟩ => ?_
  refine (tidies_reference htemp fun _ => hwritten).bind fun reference w₄ _ hg₄ hmade₄ => ?_
  have ha₄ := ha.mono (hg₁.trans (hg₂.trans (hg₃.trans hg₄)))
  have hfill := fills_reference ha₄ hmade₃.kept hmade₄
  refine (tidies_replace (ha₄.top.imp fun _ h => h.2) hfill).bind fun _ w₅ _ hg₅ _ => ?_
  refine tidies_store.bind fun _ w₆ _ hg₆ _ => ?_
  refine (tidies_slotName ha.var).bind fun slot w₇ _ hg₇ _ => ?_
  have htemp₇ := htemp.mono (hg₄.trans (hg₅.trans (hg₆.trans hg₇)))
  refine (tidies_storageRead htemp₇).bind fun read w₈ _ _ _ => ?_
  refine (tidies_insertBefore _ _ _).bind fun _ w₉ _ _ _ => ?_
  refine (tidies_discard _).bind fun _ w₁₀ _ _ _ => ?_
  exact tidies_count _

end Lower

namespace Store

variable {s : Store} {c : Catalog} {i : NodeId} {a : Access} {v : StorageVar}

theorem mem_of_receiver? (h : s.receiver? c i = some v) : v ∈ c := by
  unfold receiver? at h
  split at h
  · split at h
    · split_ifs at h
      exact List.mem_of_find?_eq_some h
    · cases h
  · cases h

/-- What reaches a state variable is a member or a subscript. -/
theorem exists_node_of_receiver? (h : s.receiver? c (s.innermost i) = some v) :
    ∃ n, s.find? i = some n ∧ n.kind.label.isPlace = true ∧ ∀ x, n.kind.label ≠ .name x := by
  cases hn : s.find? i with
  | none =>
    have hself : s.innermost i = i := by
      unfold innermost
      cases s.size <;> simp [innermostWithin, subscripted?, kind?, hn]
    rw [hself] at h
    simp [receiver?, kind?, hn] at h
  | some n =>
    by_cases hs : s.subscripted? i = none
    · have hself : s.innermost i = i := by
        unfold innermost
        cases s.size <;> simp [innermostWithin, hs]
      rw [hself, receiver?, kind?, hn] at h
      cases hk : n.kind <;> simp [hk] at h
      exact ⟨n, rfl, by rw [hk]; rfl, by simp [hk, Kind.label]⟩
    · rw [subscripted?, kind?, hn] at hs
      cases hk : n.kind <;> simp [hk] at hs
      exact ⟨n, rfl, by rw [hk]; rfl, by rw [hk]; simp [Kind.label]⟩

theorem spec_of_accessAt (h : s.accessAt c i = .ok (some a)) :
    a.top = i ∧ s.receiver? c (s.innermost i) = some a.var := by
  unfold accessAt at h
  cases hv : s.receiver? c (s.innermost i) with
  | none => simp [hv] at h
  | some v =>
    simp only [hv] at h
    split_ifs at h <;> cases h
    exact ⟨rfl, rfl⟩

theorem exists_atom (h : (s.kind? i).any Kind.isAtom = true) : ∃ n, s.find? i = some n ∧ n.kind.isAtom = true := by
  cases hn : s.find? i with
  | none => simp [Store.kind?, hn] at h
  | some n => exact ⟨n, rfl, by simpa [Store.kind?, hn] using h⟩

theorem spec_of_targetAccess (h : s.targetAccess c i = .ok (some a)) :
    s.receiver? c (s.innermost i) = some a.var ∧ a.subscripts.length = a.var.depth := by
  unfold targetAccess at h
  cases hv : s.receiver? c (s.innermost i) with
  | none => simp [hv] at h
  | some v =>
    simp only [hv] at h
    split_ifs at h with hmore hfewer
    cases h
    exact ⟨rfl, List.length_reverse.trans (Nat.le_antisymm (Nat.not_lt.1 hmore) (Nat.not_lt.1 hfewer))⟩

theorem mem_of_targetAccess (h : s.targetAccess c i = .ok (some a)) :
    a.var ∈ c := mem_of_receiver? (spec_of_targetAccess h).1

theorem exists_of_firstSome {f : NodeId → Except LoweringError (Option Access)} {l : List NodeId}
    (h : firstSome f l = .ok (some a)) : ∃ i, f i = .ok (some a) := by
  induction l with
  | nil => cases h
  | cons i l ih =>
    rw [firstSome] at h
    split at h
    · cases h
    · next hf =>
      cases h
      exact ⟨i, hf⟩
    · exact ih h

theorem exists_of_firstAccess (h : s.firstAccess c i = .ok (some a)) : ∃ j, s.accessAt c j = .ok (some a) := by
  unfold firstAccess at h
  generalize s.size + 1 = fuel at h
  induction fuel generalizing i with
  | zero => cases h
  | succ fuel ih =>
    rw [firstAccessWithin] at h
    split at h
    · cases h
    · next hf =>
      cases h
      exact ⟨i, hf⟩
    · obtain ⟨j, hj⟩ := exists_of_firstSome h
      exact ih hj

end Store

namespace Lower

variable {s₀ : Store} {w : Workspace Progress}

theorem reached_of_accessAt {s : Store} {c : Catalog} {i : NodeId} {a : Access} (hs : s.Sound)
    (hc : ∀ v ∈ c, s₀.Declared v.declared) (h : s.accessAt c i = .ok (some a)) : Reached s₀ s a := by
  obtain ⟨rfl, hv⟩ := Store.spec_of_accessAt h
  obtain ⟨n, hn, hl⟩ := Store.exists_node_of_receiver? hv
  refine ⟨hc _ (Store.mem_of_receiver? hv), hs.below _ (Store.mem_ids_of_find? hn), fun hn' => ?_⟩
  obtain rfl := Option.some.inj (hn.symm.trans hn')
  exact hl

theorem tidies_readsBelow {site : Site} (fuel : Nat) (pick : Kind → Option NodeId) (parent : NodeId) :
    Tidies s₀ (readsBelow site fuel pick parent) w fun _ _ => True := by
  induction fuel generalizing w pick parent with
  | zero => exact tidies_throw
  | succ fuel ih =>
    unfold readsBelow
    refine (tidies_node parent).bind fun n w₁ _ _ _ => ?_
    split
    · exact tidies_pure trivial
    · refine tidies_ask.bind fun r w₂ hw₂ _ ⟨hs, c, hc, hr⟩ => ?_
      cases r with
      | none => exact tidies_pure trivial
      | some a =>
        rw [← hs] at hr
        obtain ⟨j, hj⟩ := Store.exists_of_firstAccess hr
        have ha := reached_of_accessAt hw₂.tidy.sound hc hj
        exact (tidies_hoist (fun i w => ih Kind.slice? i) ha).bind fun _ _ _ _ _ => ih pick parent

theorem tidies_lowerReadsBelow {site : Site} (pick : Kind → Option NodeId) (parent : NodeId) :
    Tidies s₀ (lowerReadsBelow site pick parent) w fun _ _ => True :=
  tidies_store.bind fun _ _ _ _ _ => tidies_readsBelow _ pick parent

theorem tidies_lowerReadAt (i : NodeId) : Tidies s₀ (lowerReadAt i) w fun _ _ => True := by
  unfold lowerReadAt
  refine tidies_ask.bind fun r w₁ hw₁ _ ⟨hs, c, hc, hr⟩ => ?_
  cases r with
  | none => exact tidies_pure trivial
  | some a =>
    rw [← hs] at hr
    have ha := reached_of_accessAt hw₁.tidy.sound hc hr
    refine tidies_ask.bind fun site w₂ _ hg₂ _ => ?_
    exact tidies_hoist (fun i w => tidies_lowerReadsBelow Kind.slice? i) (ha.mono hg₂)

/-! ## Writes -/

/-- A statement is taken out of its block. -/
theorem tidies_vacate {stmt : NodeId} (h : w.store.Labelled stmt (·.isPlace = false)) :
    Tidies s₀ (vacate stmt) w fun hole s => s.Labelled hole (·.isPlace = false) := by
  unfold vacate
  refine (tidies_leaf (k := .pass) (allowed_plain rfl rfl rfl) (by simp)).bind fun hole w₁ hw₁ hg₁ hmade => ?_
  have hhole := hmade.labelled (P := (·.isPlace = false)) hw₁.tidy.sound rfl
  refine (tidies_replace ((h.mono hg₁).imp fun l hl x hx => ?_) (fills_of_labelled hhole)).bind
    fun _ w₂ _ hg₂ _ => ?_
  · rw [hx] at hl
    cases hl
  · exact tidies_pure (hhole.mono hg₂)

theorem tidies_assign {temp value : NodeId} (h : s₀.Temp w.store temp) :
    Tidies s₀ (edit (Build.assign temp value)) w fun _ _ => True :=
  (tidies_alloc (k := .assign temp value) (t := none)
    (fun _ => ⟨by simpa [Kind.bound?] using h, by simp [Kind.label], rfl⟩) (by simp)).mono fun _ _ _ => trivial

/-- A write of a slot is no place for a target. -/
theorem tidies_storageWrite {slot value : NodeId} {keys : List NodeId} :
    Tidies s₀ (edit (Build.storageWrite slot keys value)) w fun i s => s.Labelled i (·.isPlace = false) := by
  have halloc : Tidies s₀ (edit (Edit.alloc (.storageWrite slot keys value) (w.store.ty? value))) w _ :=
    tidies_alloc (fun _ => allowed_plain rfl rfl rfl) fun ht _ => ht.typed.ty?
  intro ht
  refine (halloc.congr rfl ht).mono ?_ fun _ _ h => h
  rintro i w' ⟨hw', hmade⟩
  exact ⟨hw', hmade.labelled hw'.1.tidy.sound rfl⟩

theorem named_of_not_place {l : Label} (h : l.isPlace = false) : ∀ x, l ≠ .name x := by
  rintro x rfl
  cases h

theorem tidies_storeValue {node : NodeId} {a : Access} {block value : NodeId}
    (h : w.store.Labelled node (·.isPlace = false)) (hv : s₀.Declared a.var.declared) :
    Tidies s₀ (storeValue node a block value) w fun _ _ => True := by
  unfold storeValue
  refine tidies_store.bind fun _ w₁ _ hg₁ _ => ?_
  refine (tidies_vacate (h.mono hg₁)).bind fun hole w₂ _ hg₂ hhole => ?_
  refine (tidies_temp fun _ => written_value hv).bind fun temp w₃ _ hg₃ ⟨htemp, _⟩ => ?_
  refine (tidies_slotName hv).bind fun slot w₄ _ hg₄ _ => ?_
  refine (tidies_assign (htemp.mono hg₄)).bind fun evaluate w₅ _ hg₅ _ => ?_
  refine (tidies_reference (htemp.mono (hg₄.trans hg₅)) fun _ => written_value hv).bind
    fun operand w₆ _ hg₆ _ => ?_
  refine tidies_storageWrite.bind fun write w₇ _ hg₇ hwrite => ?_
  have hhole₇ := hhole.mono (hg₃.trans (hg₄.trans (hg₅.trans (hg₆.trans hg₇))))
  refine (tidies_replace (hhole₇.imp fun _ => named_of_not_place) (fills_of_labelled hwrite)).bind
    fun _ w₈ _ _ _ => ?_
  refine (tidies_insertBefore _ _ _).bind fun _ w₉ _ _ _ => ?_
  refine (tidies_discard _).bind fun _ w₁₀ _ _ _ => ?_
  refine (tidies_discard _).bind fun _ w₁₁ _ _ _ => ?_
  exact tidies_count _

/-- A statement that assigns is no place for a target. -/
theorem labelled_of_assigned? {s : Store} {i value : NodeId} {n : Node} (hs : s.Sound) (hn : s.find? i = some n)
    (hv : n.kind.assigned? = some value) : s.Labelled i (·.isPlace = false) := by
  refine ⟨hs.below _ (Store.mem_ids_of_find? hn), fun hn' => ?_⟩
  obtain rfl := Option.some.inj (hn.symm.trans hn')
  cases hk : n.kind <;> simp [hk, Kind.assigned?] at hv <;> rfl

theorem tidies_lowerOperands {node : NodeId} {a : Access} {site : Site} :
    Tidies s₀ (lowerOperands node a site) w fun _ _ => True :=
  (tidies_lowerReadsBelow _ node).bind fun _ _ _ _ _ =>
    tidies_forM (fun i _ => tidies_lowerReadsBelow Kind.slice? i) _

theorem tidies_lowerTarget {node target : NodeId} {finish : Access → NodeId → NodeId → Lower Unit}
    (hfinish : ∀ {a block value w}, w.store.Labelled node (·.isPlace = false) → s₀.Declared a.var.declared →
      Tidies s₀ (finish a block value) w fun _ _ => True) :
    Tidies s₀ (lowerTarget node target finish) w fun _ _ => True := by
  refine tidies_ask.bind fun r w₂ _ _ hask => ?_
  obtain ⟨_, c, hc, hr⟩ := hask
  split
  · exact tidies_pure trivial
  · refine tidies_ask.bind fun site w₃ _ _ _ => ?_
    refine tidies_lowerOperands.bind fun _ w₄ _ _ _ => ?_
    refine (tidies_node node).bind fun n w₅ hw₅ _ hnode => ?_
    obtain ⟨_, hn⟩ := hnode
    split
    · exact tidies_pure trivial
    · next value hv =>
        exact hfinish (labelled_of_assigned? hw₅.tidy.sound hn hv) (hc _ (Store.mem_of_targetAccess hr))

theorem tidies_lowerAssign (node : NodeId) : Tidies s₀ (lowerAssign node) w fun _ _ => True := by
  rw [lowerAssign_eq]
  refine (tidies_node node).bind fun n w₁ _ _ _ => ?_
  split
  · exact tidies_lowerTarget tidies_storeValue
  · exact tidies_pure trivial

/-- An atom is copied with the name that it spells and the type that it has. -/
theorem tidies_deepCopy {key : NodeId} (h : (w.store.kind? key).any Kind.isAtom = true) :
    Tidies s₀ (edit (Edit.deepCopy key)) w fun _ _ => True := by
  obtain ⟨n, hn, hatom⟩ := Store.exists_atom h
  obtain ⟨hb, hd, hchildren⟩ : n.kind.bound? = none ∧ n.kind.declares? = none ∧ n.kind.children = [] := by
    cases hk : n.kind <;> simp [hk, Kind.isAtom] at hatom <;> exact ⟨rfl, rfl, rfl⟩
  have halloc : Tidies s₀ (edit (Edit.alloc n.kind n.ty)) w _ :=
    tidies_alloc (fun ht => ⟨by simp [hb], fun x hx => ht.tidy.names hn hx, hd⟩) fun ht _ => ht.typed.types hn
  exact (halloc.congr (Edit.deepCopy_eq_alloc hn hchildren)).mono fun _ _ _ => trivial

theorem tidies_shareKey (hole block key : NodeId) : Tidies s₀ (shareKey hole block key) w fun _ _ => True := by
  unfold shareKey
  refine tidies_store.bind fun s w₁ hw₁ _ ⟨hs, hs₁⟩ => ?_
  obtain rfl : s = w₁.store := hs.trans hs₁.symm
  split
  · next hatom => exact (tidies_deepCopy hatom).bind fun copy w₂ _ _ _ => tidies_pure trivial
  · have hwritten : ∀ t, w₁.store.ty? key = some t → s₀.Written t := fun _ => hw₁.typed.ty?
    refine (tidies_temp fun _ => hwritten).bind fun held w₂ _ hg₂ ⟨hheld, _⟩ => ?_
    refine (tidies_assign hheld).bind fun bind w₃ _ hg₃ _ => ?_
    refine (tidies_reference (hheld.mono hg₃) fun _ => hwritten).bind fun forRead w₄ _ hg₄ _ => ?_
    refine (tidies_reference (hheld.mono (hg₃.trans hg₄)) fun _ => hwritten).bind fun forWrite w₅ _ _ _ => ?_
    refine (tidies_insertBefore _ _ _).bind fun _ w₆ _ _ _ => ?_
    exact tidies_pure trivial

theorem tidies_mapM_shareKey (hole block : NodeId) (keys : List NodeId) :
    Tidies s₀ (keys.mapM (shareKey hole block)) w fun _ _ => True := by
  induction keys generalizing w with
  | nil => exact tidies_pure trivial
  | cons key keys ih =>
    rw [List.mapM_cons]
    refine (tidies_shareKey hole block key).bind fun _ _ _ _ _ => ?_
    exact ih.bind fun _ _ _ _ _ => tidies_pure trivial

theorem tidies_combineValue {node : NodeId} {a : Access} {op : BinOp} {block value : NodeId}
    (h : w.store.Labelled node (·.isPlace = false)) (hv : s₀.Declared a.var.declared) :
    Tidies s₀ (combineValue node a op block value) w fun _ _ => True := by
  have hwritten := written_value hv
  unfold combineValue
  refine tidies_store.bind fun _ w₁ _ hg₁ _ => ?_
  refine (tidies_vacate (h.mono hg₁)).bind fun hole w₂ _ hg₂ hhole => ?_
  refine (tidies_mapM_shareKey _ _ _).bind fun shared w₃ _ hg₃ _ => ?_
  refine (tidies_temp fun _ => hwritten).bind fun current w₄ _ hg₄ ⟨hcurrent, _⟩ => ?_
  refine (tidies_temp fun _ => hwritten).bind fun combined w₅ _ hg₅ ⟨hcombined, _⟩ => ?_
  refine (tidies_slotName hv).bind fun readSlot w₆ _ hg₆ _ => ?_
  refine (tidies_slotName hv).bind fun writeSlot w₇ _ hg₇ _ => ?_
  have hcurrent₇ := hcurrent.mono (hg₅.trans (hg₆.trans hg₇))
  refine (tidies_storageRead hcurrent₇).bind fun read w₈ _ hg₈ _ => ?_
  refine (tidies_reference (hcurrent₇.mono hg₈) fun _ => hwritten).bind fun currentRef w₉ _ hg₉ _ => ?_
  refine (tidies_alloc (k := .binOp currentRef op value) (fun _ => allowed_plain rfl rfl rfl)
    fun _ => hwritten).bind fun combination w₁₀ _ hg₁₀ _ => ?_
  have hcombined₁₀ := hcombined.mono (hg₆.trans (hg₇.trans (hg₈.trans (hg₉.trans hg₁₀))))
  refine (tidies_assign hcombined₁₀).bind fun compute w₁₁ _ hg₁₁ _ => ?_
  refine (tidies_reference (hcombined₁₀.mono hg₁₁) fun _ => hwritten).bind fun combinedRef w₁₂ _ hg₁₂ _ => ?_
  refine tidies_storageWrite.bind fun write w₁₃ _ hg₁₃ hwrite => ?_
  refine (tidies_insertBefore _ _ _).bind fun _ w₁₄ _ hg₁₄ _ => ?_
  refine (tidies_insertBefore _ _ _).bind fun _ w₁₅ _ hg₁₅ _ => ?_
  have hhole₁₅ := hhole.mono (hg₃.trans (hg₄.trans (hg₅.trans (hg₆.trans (hg₇.trans (hg₈.trans (hg₉.trans
    (hg₁₀.trans (hg₁₁.trans (hg₁₂.trans (hg₁₃.trans (hg₁₄.trans hg₁₅))))))))))))
  have hfill : s₀.Fills w₁₅.store hole write := fills_of_labelled (hwrite.mono (hg₁₄.trans hg₁₅))
  refine (tidies_replace (hhole₁₅.imp fun _ => named_of_not_place) hfill).bind fun _ w₁₆ _ _ _ => ?_
  refine (tidies_discard _).bind fun _ w₁₇ _ _ _ => ?_
  refine (tidies_discard _).bind fun _ w₁₈ _ _ _ => ?_
  exact tidies_count _

theorem tidies_lowerAugAssign (node : NodeId) : Tidies s₀ (lowerAugAssign node) w fun _ _ => True := by
  rw [lowerAugAssign_eq]
  refine (tidies_node node).bind fun n w₁ _ _ _ => ?_
  split
  · exact tidies_lowerTarget tidies_combineValue
  · exact tidies_pure trivial

/-! ## Declarations -/

/-- What is made for the keys of a getter has types of keys. -/
def ArgsOf (s : Store) (declared : Ty) (args : List NodeId) : Prop :=
  ∀ i ∈ args, ∃ n, s.find? i = some n ∧ ∀ ty, n.ty = some ty → ty ∈ declared.slotKeys

theorem ArgsOf.mono {s s' : Store} {declared : Ty} {args : List NodeId} (h : ArgsOf s declared args)
    (hk : s.Kept s') :
    ArgsOf s' declared args := by
  intro i hi
  obtain ⟨n, hn, hty⟩ := h i hi
  obtain ⟨n', hn', -, hty'⟩ := hk i n hn
  exact ⟨n', hn', fun ty ht => hty ty (hty' ▸ ht)⟩

theorem tidies_getterKeys {declared : Ty} (hd : s₀.Declared declared) (i : Nat) {tys : List Ty}
    (htys : ∀ ty ∈ tys, ty ∈ declared.slotKeys) : Tidies s₀ (getterKeys i tys) w fun r s =>
      w.store.Kept s ∧ ArgsOf s declared (r.map Prod.fst) := by
  induction tys generalizing i w with
  | nil => exact tidies_pure ⟨fun _ n hn => ⟨n, hn, rfl, rfl⟩, by simp [ArgsOf]⟩
  | cons ty tys ih =>
    rw [List.forall_mem_cons] at htys
    have hwritten : ∀ t, some ty = some t → s₀.Written t := by
      rintro t ht
      obtain rfl := Option.some.inj ht
      exact .key hd htys.1
    unfold getterKeys
    refine (tidies_leaf (k := .arg ("key" ++ toString i)) (allowed_plain rfl rfl rfl) fun _ => hwritten).bind
      fun arg w₁ _ _ hmade₁ => ?_
    refine (tidies_leaf (allowed_name (.key i)) fun _ => hwritten).bind fun reference w₂ _ _ hmade₂ => ?_
    refine (ih (i + 1) htys.2).bind fun rest w₃ _ _ hargs => tidies_pure ?_
    obtain ⟨hkept, hrest⟩ := hargs
    refine ⟨hmade₁.kept.trans (hmade₂.kept.trans hkept), ?_⟩
    rw [List.map_cons]
    refine List.forall_mem_cons.2 ⟨?_, hrest⟩
    obtain ⟨n, hn, -, hty⟩ := hmade₁.node
    obtain ⟨n', hn', -, hty'⟩ := (hmade₂.kept.trans hkept) arg n hn
    refine ⟨n', hn', fun t ht => ?_⟩
    rw [hty', hty] at ht
    obtain rfl := Option.some.inj ht
    exact htys.1

theorem tidies_function {declared : Ty} {f : String} {args body : List NodeId} {visibility : Visibility}
    {mutability : Mutability} (hd : s₀.Declared declared) (hargs : ArgsOf w.store declared args) :
    Tidies s₀ (edit (Build.function f args body visibility mutability)) w
      fun i s => ∃ n params, s.find? i = some n ∧ n.kind = .functionDef f args body visibility mutability ∧
      n.ty = some (.function params none visibility mutability) ∧ ∀ p ∈ params, p ∈ declared.slotKeys := by
  have hparams : ∀ p ∈ args.filterMap w.store.ty?, p ∈ declared.slotKeys := by
    intro p hp
    obtain ⟨i, hi, hty⟩ := List.mem_filterMap.1 hp
    obtain ⟨n, hn, hn'⟩ := hargs i hi
    rw [Store.ty?, hn] at hty
    exact hn' p hty
  have halloc : Tidies s₀ (edit (Edit.alloc (.functionDef f args body visibility mutability)
      (some (.function (args.filterMap w.store.ty?) none visibility mutability)))) w _ :=
    tidies_alloc (fun _ => allowed_plain rfl rfl rfl) fun _ t ht => Option.some.inj ht ▸ .getter hd hparams
    (by simp)
  have hfunction : Build.function f args body visibility mutability w.store = Edit.alloc _ _ w.store := rfl
  refine (halloc.congr hfunction).mono fun i s hmade => ?_
  obtain ⟨n, hn, hk, hty⟩ := hmade.node
  exact ⟨n, _, hn, hk, hty, hparams⟩

theorem tidies_makeGetter {v : StorageVar} (hv : s₀.Declared v.declared) (module : NodeId) :
    Tidies s₀ (makeGetter v module) w fun _ _ => True := by
  have hwritten := written_value hv
  unfold makeGetter
  refine (tidies_temp fun _ => hwritten).bind fun temp w₁ _ _ ⟨htemp, _⟩ => ?_
  refine (tidies_slotName hv).bind fun slot w₂ _ hg₂ _ => ?_
  refine (tidies_getterKeys hv 0 fun _ h => h).bind fun keys w₃ _ hg₃ ⟨_, hargs⟩ => ?_
  have htemp₃ := htemp.mono (hg₂.trans hg₃)
  refine (tidies_storageRead htemp₃).bind fun read w₄ _ hg₄ hkept₄ => ?_
  refine (tidies_reference (htemp₃.mono hg₄) fun _ => hwritten).bind fun returned w₅ _ _ hmade₅ => ?_
  refine (tidies_alloc (k := .ret (some returned)) (t := none) (fun _ => allowed_plain rfl rfl rfl) (by simp)).bind
    fun ret w₆ _ _ hmade₆ => ?_
  have hargs₆ := hargs.mono (hkept₄.trans (hmade₅.kept.trans hmade₆.kept))
  refine (tidies_function hv hargs₆).bind fun getter w₇ _ _ ⟨n, params, hn, hk, hty, hparams⟩ => ?_
  refine (tidies_retype (g := Option.map (Build.withReturns v.value)) fun {m ty} hm hmty => ?_).bind
    fun _ w₈ _ _ _ => ?_
  · obtain rfl := Option.some.inj (hn.symm.trans hm)
    rw [hty] at hmty
    obtain rfl := Option.some.inj hmty
    refine ⟨.getter hv hparams fun r hr => (Option.some.inj hr).symm, fun h => ?_⟩
    rw [hk] at h
    simp [Kind.declares?, Kind.label, Label.isPlace] at h
  · exact (tidies_appendDeclaration module getter).bind fun _ w₉ _ _ _ => tidies_count _

theorem tidies_addGetter {v : StorageVar} (hv : s₀.Declared v.declared) (module : NodeId) :
    Tidies s₀ (addGetter v module) w fun _ _ => True := by
  unfold addGetter
  refine (tidies_node module).bind fun n w₁ _ _ _ => ?_
  split
  · refine tidies_store.bind fun s w₂ _ _ _ => ?_
    split
    · exact tidies_throw
    · exact tidies_makeGetter hv module
  · exact tidies_makeGetter hv module

/-- A node gets the type of a slot. -/
theorem tidies_setSlot {v : StorageVar} (hv : s₀.Declared v.declared) (i : NodeId) :
    Tidies s₀ (edit (Edit.setTy i (some v.slotTy))) w fun _ _ => True := by
  refine tidies_retype (g := fun _ => some v.slotTy) fun _ hty => ?_
  obtain rfl := Option.some.inj hty
  exact ⟨.slot hv, fun _ => hv.slot⟩

theorem tidies_lowerDeclaration (node module : NodeId) :
    Tidies s₀ (lowerDeclaration node module) w fun _ _ => True := by
  unfold lowerDeclaration
  refine tidies_catalog.bind fun c w₁ _ _ hc => ?_
  split
  · exact tidies_pure trivial
  · next v hv =>
    have hv := hc v (List.mem_of_find?_eq_some hv)
    refine tidies_store.bind fun s w₂ _ _ _ => ?_
    split
    · exact tidies_pure trivial
    · refine (tidies_setSlot hv _).bind fun _ w₃ _ _ _ => ?_
      refine (tidies_node node).bind fun n w₄ _ _ _ => ?_
      split
      · split
        · exact (tidies_setSlot hv _).bind fun _ _ _ _ _ => tidies_addGetter hv module
        · exact tidies_addGetter hv module
      · split
        · exact (tidies_setSlot hv _).bind fun _ _ _ _ _ => tidies_pure trivial
        · exact tidies_pure trivial

theorem mem_insert {c : Catalog} {u v : StorageVar} (h : u ∈ c.insert v) : u ∈ c ∨ u = v := by
  unfold Catalog.insert at h
  split_ifs at h
  · obtain ⟨x, hx, rfl⟩ := List.mem_map.1 h
    split_ifs
    · exact .inr rfl
    · exact .inl hx
  · simpa using h

/-- A declaration that owns what it lists is looked at. -/
theorem tidies_collectDecl {decl : NodeId}
    (howns : ∀ n, w.store.find? decl = some n → w.store.Owns decl n.kind.children) :
    Tidies s₀ (collectDecl decl) w fun _ s => s = w.store := by
  unfold collectDecl
  refine (tidies_node decl).bind fun n w₁ _ _ hnode => ?_
  obtain ⟨hs₁, hn⟩ := hnode
  rw [← hs₁] at howns ⊢
  split
  · next target value isPublic isConstant isImmutable hk =>
    split
    · exact tidies_pure rfl
    · next hplain =>
      obtain ⟨rfl, rfl⟩ : isConstant = false ∧ isImmutable = false := by simpa using hplain
      have hd : n.kind.declares? = some target := by rw [hk]; rfl
      refine (tidies_node target).bind fun k w₂ hw₂ _ htarget => ?_
      obtain ⟨hs₂, hkt⟩ := htarget
      rw [← hs₂] at howns hn ⊢
      split
      · exact tidies_throw
      · next name hname =>
        have hplace : k.kind.label.isPlace = true := by
          cases hkk : k.kind <;> simp [hkk, Kind.name?] at hname
          rfl
        refine tidies_store.bind fun s w₃ hw₃ _ hstore => ?_
        obtain ⟨hs, hs₃⟩ := hstore
        obtain rfl : s = w₃.store := hs.trans hs₃.symm
        rw [← hs₃] at howns hn hkt ⊢
        split
        · exact tidies_throw
        · next declared hty =>
          refine tidies_modifyCatalog fun ht v hv => ?_
          rcases mem_insert hv with hv | rfl
          · exact ht.catalog v hv
          · rcases Option.or_eq_some_iff.1 hty with hty | ⟨-, hty⟩
            · rw [Store.ty?, hn] at hty
              exact hw₃.typed.declared hn (by rw [hd]; rfl) hty
            · rw [Store.ty?, hkt] at hty
              exact hw₃.typed.target hn hd (howns n hn) hkt hplace hty
  · exact tidies_pure rfl

theorem tidies_collectCatalog {module : NodeId}
    (howns : ∀ d ∈ w.store.children module, ∀ n, w.store.find? d = some n → w.store.Owns d n.kind.children) :
    Tidies s₀ (collectCatalog module) w fun _ _ => True := by
  have hdecls : ∀ (l : List NodeId) (w' : Workspace Progress), w'.store = w.store → l ⊆ w.store.children module →
      Tidies s₀ (l.forM collectDecl) w' fun _ _ => True := by
    intro l
    induction l with
    | nil => exact fun _ _ _ => tidies_pure trivial
    | cons d l ih =>
      intro w' hw' hl
      refine (tidies_collectDecl fun n hn => ?_).bind fun _ w₁ _ _ hs => ?_
      · rw [hw'] at hn ⊢
        exact howns d (hl List.mem_cons_self) n hn
      · exact ih w₁ (hs.trans hw') fun _ h => hl (List.mem_cons_of_mem _ h)
  unfold collectCatalog
  refine (tidies_modifyCatalog (by simp)).bind fun _ w₁ _ _ hs₁ => ?_
  refine (tidies_node module).bind fun n w₂ _ _ ⟨hs₂, hn⟩ => ?_
  split
  · next body hk =>
    refine hdecls body w₂ (hs₂.trans hs₁) ?_
    rw [hs₂, hs₁] at hn
    rw [Store.children, hn]
    simp [Node.children, hk, Kind.children]
  · exact tidies_throw

end Lower

/-! ## One visit -/

namespace Lowering

open Lower

variable {s₀ : Store} {w : Workspace Progress}

/-- A visit keeps track of names and types, if what the node lists owns what it lists in turn. -/
theorem tidies_dispatch {i m : NodeId}
    (howns : ∀ d ∈ w.store.children i, ∀ n, w.store.find? d = some n → w.store.Owns d n.kind.children) :
    Tidies s₀ (visitor.dispatch i m) w fun _ _ => True := by
  unfold Visitor.dispatch
  refine (tidies_node i).bind fun n w₁ _ _ ⟨hs₁, _⟩ => ?_
  rw [← hs₁] at howns
  show Tidies s₀ (visitor.visit n.tag i m) w₁ _
  simp only [visitor]
  split
  · exact tidies_collectCatalog howns
  · exact tidies_lowerDeclaration i m
  · exact tidies_lowerAssign i
  · exact tidies_lowerAugAssign i
  · exact tidies_lowerReadAt i
  · exact tidies_lowerReadAt i
  · exact tidies_pure trivial

/-- In a tree, every node owns what it lists. -/
theorem Stands.owns {G : Outside} {m i : NodeId} {T : Tree} (h : Stands G m w T) (hi : i ∈ T.ids) {n : Node}
    (hn : w.store.find? i = some n) : w.store.Owns i n.kind.children := by
  obtain ⟨c, st, hc⟩ := h.has
  have hfit := hc.fits
  have hnodup := hc.nodup
  obtain ⟨C, u, rfl, rfl⟩ := Tree.exists_place hi
  have hu := Store.Holds.inside hc.holds
  obtain rfl := Option.some.inj (hu.top.symm.trans hn)
  rw [Tree.root_kind, (Ctx.fits_of_plug hfit).children_kind]
  refine ⟨?_, fun c hc => ?_⟩
  · exact Tree.nodup_map_id_kids ((Ctx.nodup_plug C u).1 hnodup).2.1
  · obtain ⟨k, hk, rfl⟩ := List.mem_map.1 hc
    exact (hu.kid hk).parent?

theorem kept_traced {G : Outside} {m : NodeId} : Kept G m (Traced s₀) fun _ => True := by
  intro w T i h hi hw
  have howns : ∀ d ∈ w.store.children i, ∀ n, w.store.find? d = some n → w.store.Owns d n.kind.children :=
    fun d hd n hn => h.owns (h.children hi d hd) hn
  exact (tidies_dispatch howns hw).mono (fun _ _ h => h.1.1) fun _ _ h => h

/-- A run leaves a tree of the module, and every name and every type in the store is accounted for. -/
theorem run_traced {m : NodeId} {w' : Workspace Progress} (hs : w.store.Sound) (hv : w.store.verify m = .ok ())
    (hrun : run m w = .ok () w') : Whole m w' ∧ Traced w.store w' := by
  have hwhole : Whole m w := ⟨hs, (Store.verify_iff hs.nodup m).1 hv⟩
  obtain ⟨-, T, rfl, -, -, hT⟩ := hwhole
  have hmodule := isModule_of_run hT.top hrun
  rw [run_own hT.top hmodule {}] at hrun
  have hstart : Traced w.store ⟨w.store, {}⟩ := ⟨.refl hs, .refl _, by simp⟩
  have hkeeps := run_keeps (w := ⟨w.store, {}⟩) kept_traced (fun _ _ => trivial)
    ⟨hs, (Store.verify_iff hs.nodup T.id).1 hv⟩ hstart
  exact hkeeps.of_ok hrun

end Lowering

end ContractTree
