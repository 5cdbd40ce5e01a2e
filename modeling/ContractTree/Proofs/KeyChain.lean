import ContractTree.Proofs.Chain
import ContractTree.Proofs.Ends
import ContractTree.Proofs.Linked
import ContractTree.Store.Build
import Mathlib.Logic.Function.Iterate

/-!
Chains of keys that are built and chains of keys that are recognised. `Build.storageIndex` puts one subscript after
the other around a member of `self`; what it leaves is a `Store.KeyChain`. In a tree such a chain is a base with
links, so the questions `Store.accessAt` and `Store.targetAccess` can be answered at each of its nodes: the number
of subscripts decides. Main statement: `Build.storageIndex_recognised`.
-/

namespace ContractTree

theorem Tree.nodup_at? {t u : Tree} {path : List Nat} (hn : t.ids.Nodup) (hu : t.at? path = some u) :
    u.ids.Nodup := by
  induction path generalizing t with
  | nil => exact Option.some.inj hu ▸ hn
  | cons k path ih =>
    obtain ⟨kid, hk, hu⟩ := Option.bind_eq_some_iff.1 hu
    exact ih (nodup_kid hn (List.mem_of_getElem? hk)) hu

namespace Store

theorem Holds.subscript_of_kind? {s : Store} {p : Option NodeId} {t : Tree} {value key : NodeId} (h : s.Holds p t)
    (hf : t.Fits) (hk : s.kind? t.id = some (.subscript value key)) :
    ∃ i ty v k, t = .node i ty .subscript [v, k] [] [] ∧ v.id = value ∧ k.id = key := by
  rcases hf.subscript_cases with ⟨i, ty, v, k, rfl⟩ | hl
  · have hk' : s.kind? i = some (.subscript v.id k.id) := h.kind?
    exact ⟨i, ty, v, k, rfl, Kind.subscript.inj (Option.some.inj (hk'.symm.trans hk))⟩
  · have := h.subscripted?_of_label hf hl
    simp [Store.subscripted?, hk] at this

/-- The nodes are the member `x` of `self`, which `receiver` names, and around it one subscript for each key,
innermost first. -/
inductive KeyChain (s : Store) (x : String) (receiver : NodeId) : List NodeId → List NodeId → Prop
  | bare {i : NodeId} (hi : s.kind? i = some (.member receiver x)) (hr : s.kind? receiver = some (.name "self")) :
      KeyChain s x receiver [] [i]
  | keyed {keys nodes : List NodeId} {value key i : NodeId} (h : KeyChain s x receiver keys nodes)
      (hv : nodes.getLast? = some value) (hi : s.kind? i = some (.subscript value key)) :
      KeyChain s x receiver (keys ++ [key]) (nodes ++ [i])

namespace KeyChain

variable {s s' : Store} {x : String} {r : NodeId} {keys nodes : List NodeId}

theorem length_eq (h : s.KeyChain x r keys nodes) : nodes.length = keys.length + 1 := by
  induction h with
  | bare => rfl
  | keyed _ _ _ ih => simp [ih]

/-- A chain only depends on the kinds of its nodes. -/
theorem of_kind? (h : s.KeyChain x r keys nodes) (hk : ∀ i ∈ r :: nodes, s'.kind? i = s.kind? i) :
    s'.KeyChain x r keys nodes := by
  induction h with
  | bare hi hr => exact .bare ((hk _ (by simp)).trans hi) ((hk _ (by simp)).trans hr)
  | keyed h hv hi ih =>
    refine .keyed (ih fun i hmem => hk i ?_) hv ((hk _ (by simp)).trans hi)
    rw [← List.cons_append]
    exact List.mem_append_left _ hmem

/-- A chain that is cut behind one of its nodes is a chain. -/
theorem take (h : s.KeyChain x r keys nodes) {j : Nat} (hj : j ≤ keys.length) :
    s.KeyChain x r (keys.take j) (nodes.take (j + 1)) := by
  induction h with
  | bare hi hr =>
    obtain rfl : j = 0 := by simpa using hj
    exact .bare hi hr
  | keyed h hv hi ih =>
    rcases Nat.lt_or_eq_of_le hj with hlt | rfl
    · rw [List.length_append, List.length_singleton] at hlt
      rw [List.take_append_of_le_length (by omega), List.take_append_of_le_length (by rw [h.length_eq]; omega)]
      exact ih (by omega)
    · rw [List.take_length, List.take_of_length_le (by simp [h.length_eq])]
      exact .keyed h hv hi

variable {c : Catalog} {p : Option NodeId} {t : Tree} {var : StorageVar}

/-- The tree of a chain has its subscripts as links around the member. -/
theorem links_eq (h : s.KeyChain x r keys nodes) (htop : nodes.getLast? = some t.id) (hh : s.Holds p t)
    (hf : t.Fits) : t.links.map Link.id = nodes.tail ∧ t.links.map (·.key.id) = keys ∧ t.reach c = c.find? x := by
  induction h generalizing p t with
  | bare hi hr =>
    obtain rfl : _ = t.id := Option.some.inj htop
    have hlabel : t.label = .member x := by
      have := hf.label_kind
      rw [Option.some.inj (hh.kind?.symm.trans hi)] at this
      exact this.symm
    have hl : t.label ≠ .subscript := by simp [hlabel]
    refine ⟨by simp [Tree.links_of_label hl], by simp [Tree.links_of_label hl], ?_⟩
    rw [Tree.reach, Tree.base_of_label hl, ← hh.receiver? hf, Store.receiver?, hi]
    simp [hr, Kind.isName, Kind.name?]
  | keyed h hv hi ih =>
    obtain rfl : _ = t.id := by simpa using htop
    obtain ⟨i, ty, v, k, rfl, rfl, rfl⟩ := hh.subscript_of_kind? hf hi
    obtain ⟨hids, hkeys, hreach⟩ := ih hv (hh.kid (by simp)) (hf.kid (by simp))
    refine ⟨?_, by simp [Tree.links, hkeys], hreach⟩
    rw [List.tail_append_of_ne_nil (by rintro rfl; simp at hv), Tree.links, List.map_append, hids]
    rfl

/-- Each node of a chain in a tree is the top of a tree, and each but the last one is what its parent subscripts.
-/
theorem holds_inner (h : s.KeyChain x r keys nodes) (htop : nodes.getLast? = some t.id) (hh : s.Holds p t)
    (hf : t.Fits) (hn : t.ids.Nodup) {j : Nat} {i : NodeId} (hj : nodes[j]? = some i) :
    ∃ q u, s.Holds q u ∧ u.Fits ∧ u.ids.Nodup ∧ u.id = i ∧ (j < keys.length → s.isSubscripted i = true) := by
  induction h generalizing p t with
  | bare hi hr =>
    obtain ⟨rfl, rfl⟩ : j = 0 ∧ i = t.id := by
      obtain rfl : _ = t.id := Option.some.inj htop
      cases j with
      | zero => exact ⟨rfl, (Option.some.inj hj).symm⟩
      | succ j => cases hj
    exact ⟨p, t, hh, hf, hn, rfl, fun hlt => absurd hlt (by simp)⟩
  | @keyed keys nodes value key n h hv hi ih =>
    obtain rfl : n = t.id := by simpa using htop
    obtain ⟨n, ty, v, k, rfl, rfl, rfl⟩ := hh.subscript_of_kind? hf hi
    have hhv := hh.kid (k := v) (by simp)
    rcases Nat.lt_trichotomy j keys.length with hlt | rfl | hgt
    · rw [List.getElem?_append_left (by rw [h.length_eq]; omega)] at hj
      obtain ⟨q, u, hq, hu, hun, hid, hsub⟩ := ih hv hhv (hf.kid (by simp)) (Tree.nodup_kid hn (by simp)) hj
      exact ⟨q, u, hq, hu, hun, hid, fun _ => hsub hlt⟩
    · rw [List.getElem?_append_left (by rw [h.length_eq]; omega)] at hj
      have hlast : nodes.getLast? = nodes[keys.length]? := by rw [List.getLast?_eq_getElem?, h.length_eq]; rfl
      obtain rfl : v.id = i := Option.some.inj (hv.symm.trans (hlast.trans hj))
      refine ⟨_, v, hhv, hf.kid (by simp), Tree.nodup_kid hn (by simp), rfl, fun _ => ?_⟩
      rw [Store.isSubscripted, hhv.parent?]
      simp [hh.subscripted?_subscript]
    · have hbound := (List.getElem?_eq_some_iff.1 hj).1
      obtain rfl : j = nodes.length := by
        rw [List.length_append, List.length_singleton] at hbound
        have := h.length_eq
        omega
      obtain rfl : i = n := by simpa using hj.symm
      exact ⟨p, _, hh, hf, hn, rfl, fun hlt => absurd hlt (by rw [h.length_eq]; simp)⟩

/-- What is found at the last node of a chain. -/
theorem accessAt_eq (h : s.KeyChain x r keys nodes) (htop : nodes.getLast? = some t.id) (hh : s.Holds p t)
    (hf : t.Fits) (hn : t.ids.Nodup) (hvar : c.find? x = some var) :
    s.accessAt c t.id =
      if var.depth < keys.length then .ok none
      else if keys.length < var.depth then
        if s.isSubscripted t.id then .ok none else .error (.unresolvedKeyChain var.name t.id var.depth keys.length)
      else .ok (some ⟨var, t.id, nodes.tail⟩) := by
  obtain ⟨hids, -, hreach⟩ := h.links_eq htop hh hf (c := c)
  have hlength : nodes.tail.length = keys.length := by simp [h.length_eq]
  unfold Store.accessAt
  rw [hh.receiver?_innermost hf hn, hreach, hvar, hh.chain hf hn]
  simp only [List.length_reverse, List.reverse_reverse, hids, hlength]

theorem targetAccess_eq (h : s.KeyChain x r keys nodes) (htop : nodes.getLast? = some t.id) (hh : s.Holds p t)
    (hf : t.Fits) (hn : t.ids.Nodup) (hvar : c.find? x = some var) :
    s.targetAccess c t.id =
      if var.depth < keys.length then .error (.unsupportedTarget var.name t.id)
      else if keys.length < var.depth then .error (.unresolvedKeyChain var.name t.id var.depth keys.length)
      else .ok (some ⟨var, t.id, nodes.tail⟩) := by
  obtain ⟨hids, -, hreach⟩ := h.links_eq htop hh hf (c := c)
  have hlength : nodes.tail.length = keys.length := by simp [h.length_eq]
  unfold Store.targetAccess
  rw [hh.receiver?_innermost hf hn, hreach, hvar, hh.chain hf hn]
  simp only [List.length_reverse, List.reverse_reverse, hids, hlength]

theorem kind?_receiver (h : s.KeyChain x r keys nodes) : s.kind? r = some (.name "self") := by
  induction h with
  | bare _ hr => exact hr
  | keyed _ _ _ ih => exact ih

/-- The receiver itself is no access. -/
theorem accessAt_receiver (h : s.KeyChain x r keys nodes) : s.accessAt c r = .ok none := by
  have hinner : ∀ fuel, s.innermostWithin fuel r = r := by
    intro fuel
    cases fuel with
    | zero => rfl
    | succ fuel => simp [Store.innermostWithin, Store.subscripted?, h.kind?_receiver]
  rw [Store.accessAt, Store.innermost, hinner, Store.receiver?, h.kind?_receiver]

/-- The keys of the subscripts are the keys of the chain. -/
theorem filterMap_slice? (h : s.KeyChain x r keys nodes) :
    (nodes.tail.filterMap fun i => (s.kind? i).bind Kind.slice?) = keys := by
  induction h with
  | bare => rfl
  | keyed h hv hi ih =>
    rw [List.tail_append_of_ne_nil (by rintro rfl; simp at hv), List.filterMap_append, ih]
    simp [hi, Kind.slice?]

end KeyChain

end Store

/-! ## Building a chain -/

namespace Build

variable {s s₁ : Store} {x : String} {r v e : NodeId} {ty : Ty} {keys done nodes : List NodeId}

/-- The second store has the nodes of the first one, with their kinds and types. -/
def Extends (s s₁ : Store) : Prop :=
  ∀ i ∈ s.ids, i ∈ s₁.ids ∧ s₁.kind? i = s.kind? i ∧ s₁.ty? i = s.ty? i

theorem Extends.trans {s₂ : Store} (h : Extends s s₁) (h' : Extends s₁ s₂) : Extends s s₂ := by
  intro i hi
  obtain ⟨hmem, hk, hty⟩ := h i hi
  obtain ⟨hmem', hk', hty'⟩ := h' i hmem
  exact ⟨hmem', hk'.trans hk, hty'.trans hty⟩

/-- A node with this kind and type was made: it is new, and the other nodes are as before. -/
def Makes (s : Store) (k : Kind) (ty : Option Ty) (e : NodeId) (s₁ : Store) : Prop :=
  s₁.Sound ∧ Extends s s₁ ∧ e ∉ s.ids ∧ e ∈ s₁.ids ∧ s₁.kind? e = some k ∧ s₁.ty? e = ty

theorem makes_added (hs : s.Sound) (hlt : s.nextId.next?.isSome) (k : Kind) (ty : Option Ty) (l : List NodeId) :
    Makes s k ty s.nextId ((s.added { id := s.nextId, ty, kind := k }).adopt s.nextId l) := by
  have hfind : ∀ i, ((s.added { id := s.nextId, ty, kind := k }).adopt s.nextId l).find? i =
      (if i = s.nextId then some { id := s.nextId, ty, kind := k } else s.find? i).map fun n =>
        if i ∈ l then { n with parent := some s.nextId } else n := by
    intro i
    rw [Store.find?_adopt, Store.find?_added hs rfl]
  refine ⟨(hs.added rfl hlt).of_ids (Store.ids_adopt _ _) rfl rfl, fun i hi => ?_, hs.fresh, by simp, ?_, ?_⟩
  · have hne : i ≠ s.nextId := fun h => hs.fresh (h ▸ hi)
    rw [Store.kind?, Store.ty?, hfind, if_neg hne, Store.kind?, Store.ty?]
    refine ⟨by simp [hi], ?_⟩
    cases s.find? i with
    | none => exact ⟨rfl, rfl⟩
    | some n => by_cases hc : i ∈ l <;> simp [hc]
  · rw [Store.kind?, hfind, if_pos rfl]
    by_cases hc : s.nextId ∈ l <;> simp [hc]
  · rw [Store.ty?, hfind, if_pos rfl]
    by_cases hc : s.nextId ∈ l <;> simp [hc]

theorem ends_alloc_makes (k : Kind) (ty : Option Ty) (hs : s.Sound) :
    Ends (Edit.alloc k ty) s (Makes s k ty) fun _ _ => True := by
  refine (Edit.ends_alloc k ty).mono ?_ fun _ _ _ => trivial
  rintro _ _ ⟨rfl, hlt, -, rfl⟩
  exact makes_added hs hlt k ty k.children

theorem ends_leaf_makes (k : Kind) (ty : Option Ty) (hs : s.Sound) :
    Ends (Edit.leaf k ty) s (Makes s k ty) fun _ _ => True := by
  refine (Edit.ends_insertNew (fun _ => k) ty).mono ?_ fun _ _ _ => trivial
  rintro _ _ ⟨rfl, hlt, rfl⟩
  rw [← Store.adopt_nil (s := s.added _) s.nextId]
  exact makes_added hs hlt k ty []

/-- Subscripts that are put around the last node of a chain make the chain longer. -/
theorem ends_subscripts (ty : Ty) (keys : List NodeId) (hs : s.Sound) (hchain : s.KeyChain x r done nodes)
    (hv : nodes.getLast? = some v) (hmem : ∀ i ∈ r :: nodes, i ∈ s.ids) :
    Ends (subscripts v ty keys) s (fun e s₁ => Extends s s₁ ∧
      ∃ more, s₁.KeyChain x r (done ++ keys) (nodes ++ more) ∧
      (nodes ++ more).getLast? = some e ∧ (∀ i ∈ more, i ∈ s₁.ids ∧ i ∉ s.ids) ∧
      ∀ j i, more[j]? = some i → s₁.ty? i = some (afterKey^[j + 1] ty)) fun _ _ => True := by
  induction keys generalizing s v ty done nodes with
  | nil => exact ⟨fun i hi => ⟨hi, rfl, rfl⟩, [], by simpa using hchain, by simpa using hv, by simp, by simp⟩
  | cons key keys ih =>
    rw [subscripts, ends_bind]
    refine (ends_alloc_makes (.subscript v key) (some (afterKey ty)) hs).mono ?_ fun _ _ _ => trivial
    rintro n s₂ ⟨hs₂, hext, hnew, hn, hkind, hty⟩
    have hchain₂ : s₂.KeyChain x r (done ++ [key]) (nodes ++ [n]) :=
      .keyed (hchain.of_kind? fun i hi => (hext i (hmem i hi)).2.1) hv hkind
    have hmem₂ : ∀ i ∈ r :: (nodes ++ [n]), i ∈ s₂.ids := by
      rw [← List.cons_append, List.forall_mem_append, List.forall_mem_singleton]
      exact ⟨fun i hi => (hext i (hmem i hi)).1, hn⟩
    refine (ih (afterKey ty) hs₂ hchain₂ (by simp) hmem₂).mono ?_ fun _ _ _ => trivial
    rintro e s₁ ⟨hext', more, hmore, hlast, hfresh, htys⟩
    refine ⟨hext.trans hext', n :: more, by simpa using hmore, by simpa using hlast, ?_, ?_⟩
    · rw [List.forall_mem_cons]
      exact ⟨⟨(hext' n hn).1, hnew⟩, fun i hi => ⟨(hfresh i hi).1, fun hi' => (hfresh i hi).2 (hext i hi').1⟩⟩
    · intro j i hj
      cases j with
      | zero =>
        obtain rfl : n = i := Option.some.inj hj
        rw [(hext' n hn).2.2, hty]
        rfl
      | succ j => exact htys j i hj

/-- What is built around the member of `self` is a chain of new nodes, each with the type that its keys leave. -/
theorem ends_storageIndex (x : String) (ty : Ty) (keys : List NodeId) (hs : s.Sound) :
    Ends (storageIndex x ty keys) s (fun e s₁ => ∃ r nodes, s₁.KeyChain x r keys nodes ∧ nodes.getLast? = some e ∧
      (∀ i ∈ r :: nodes, i ∈ s₁.ids ∧ i ∉ s.ids) ∧ ∀ j i, nodes[j]? = some i → s₁.ty? i = some (afterKey^[j] ty))
      fun _ _ => True := by
  rw [storageIndex, selfMember, ends_bind, ends_bind]
  refine (ends_leaf_makes (.name "self") none hs).mono ?_ fun _ _ _ => trivial
  rintro r s₂ ⟨hs₂, hext₂, hr, hr₂, hself, -⟩
  refine (ends_alloc_makes (.member r x) (some ty) hs₂).mono ?_ fun _ _ _ => trivial
  rintro m s₃ ⟨hs₃, hext₃, hm, hm₃, hmember, hty⟩
  have hr₃ := hext₃ r hr₂
  have hchain : s₃.KeyChain x r [] [m] := .bare hmember (hr₃.2.1.trans hself)
  refine (ends_subscripts ty keys hs₃ hchain rfl (by simp [hr₃.1, hm₃])).mono ?_ fun _ _ _ => trivial
  rintro e s₁ ⟨hext, more, hmore, hlast, hfresh, htys⟩
  refine ⟨r, m :: more, hmore, hlast, ?_, ?_⟩
  · rw [List.forall_mem_cons, List.forall_mem_cons]
    exact ⟨⟨(hext r hr₃.1).1, hr⟩, ⟨(hext m hm₃).1, fun h => hm (hext₂ m h).1⟩,
      fun i hi => ⟨(hfresh i hi).1, fun h => (hfresh i hi).2 ((hext₂.trans hext₃) i h).1⟩⟩
  · intro j i hj
    cases j with
    | zero =>
      obtain rfl : m = i := Option.some.inj hj
      rw [(hext m hm₃).2.2, hty]
      rfl
    | succ j => exact htys j i hj

theorem afterKey_iterate_levelKeys (t : Ty) : afterKey^[t.levelKeys.length] t = t.levelValue := by
  match t with
  | .mapping key value => exact afterKey_iterate_levelKeys value
  | .bool | .uint _ | .int _ | .address | .bytes _ | .string | .dynArray _ _ | .storage _ _ | .function _ _ _ _ =>
    rfl
termination_by sizeOf t

/-- As many keys as a type has mappings around its value lead to the value. -/
theorem afterKey_iterate_keyDepth {t : Ty} (ht : t.isSlot = false) : afterKey^[t.keyDepth] t = t.levelValue := by
  cases t with
  | storage keys value => cases ht
  | _ => exact afterKey_iterate_levelKeys _

/-- **The keys that are built in are the keys that are found.** In a later store that holds the chain in a tree,
`nodes` are the member and the subscripts around it. The top is the variable's access exactly when there are as
many keys as the variable has; otherwise the chain is too short, or the top looks into the value. Between the
member and the top only the node with the right number of keys is an access, and it has the type of the value. -/
theorem storageIndex_recognised {s' : Store} {root : NodeId} {path : List Nat} {c : Catalog} {var : StorageVar}
    (hs : s.Sound) (hbuilt : storageIndex x ty keys s = .ok e s₁)
    (hkept : ∀ i ∈ s₁.ids, i ∉ s.ids → s'.kind? i = s₁.kind? i ∧ s'.ty? i = s₁.ty? i)
    (hids : s'.ids.Nodup) (hverify : s'.verify root = .ok ()) (hpath : s'.Reaches root path e)
    (htop : s'.isSubscripted e = false) (hvar : c.find? x = some var) (hty : var.declared = ty) :
    ∃ r nodes, s'.KeyChain x r keys nodes ∧ nodes.length = keys.length + 1 ∧ nodes.getLast? = some e ∧
      (keys.length = ty.keyDepth →
        ∃ a, s'.targetAccess c e = .ok (some a) ∧ a.var = var ∧ a.top = e ∧ a.keys s' = keys) ∧
      (keys.length < ty.keyDepth →
        s'.targetAccess c e = .error (.unresolvedKeyChain x e ty.keyDepth keys.length)) ∧
      (ty.keyDepth < keys.length → s'.targetAccess c e = .error (.unsupportedTarget x e)) ∧
      (keys.length ≤ ty.keyDepth → s'.accessAt c e = s'.targetAccess c e) ∧
      s'.accessAt c r = .ok none ∧
      (∀ j i, nodes[j]? = some i →
        (ty.keyDepth < j → s'.accessAt c i = .ok none) ∧
        (j < ty.keyDepth → j < keys.length → s'.accessAt c i = .ok none) ∧
        (j = ty.keyDepth →
          (∃ a, s'.accessAt c i = .ok (some a) ∧ a.var = var ∧ a.top = i ∧ a.keys s' = keys.take ty.keyDepth) ∧
          (ty.isSlot = false → s'.ty? i = some ty.levelValue))) := by
  obtain ⟨r, nodes, hchain₁, hlast, hnew, htys⟩ := (ends_storageIndex x ty keys hs).of_ok hbuilt
  have hchain : s'.KeyChain x r keys nodes :=
    hchain₁.of_kind? fun i hi => (hkept i (hnew i hi).1 (hnew i hi).2).1
  obtain ⟨T, rfl, hf, hn, hT⟩ := (Store.verify_iff hids root).1 hverify
  obtain ⟨t, ht, rfl⟩ := (hT.reaches_iff hf).1 hpath
  obtain ⟨hft, p, hp⟩ := hT.at? hf ht
  have hnt := Tree.nodup_at? hn ht
  have hname : var.name = x := by simpa using List.find?_some hvar
  have hdepth : var.depth = ty.keyDepth := by rw [StorageVar.depth, StorageVar.keys, hty]; rfl
  have htarget := hchain.targetAccess_eq hlast hp hft hnt hvar
  have haccess := hchain.accessAt_eq hlast hp hft hnt hvar
  rw [hname, hdepth] at htarget haccess
  refine ⟨r, nodes, hchain, hchain.length_eq, hlast, ?_, ?_, ?_, ?_, hchain.accessAt_receiver, ?_⟩
  · intro heq
    refine ⟨⟨var, t.id, nodes.tail⟩, ?_, rfl, rfl, hchain.filterMap_slice?⟩
    rw [htarget, if_neg (by omega), if_neg (by omega)]
  · intro hlt
    rw [htarget, if_neg (by omega), if_pos hlt]
  · intro hlt
    rw [htarget, if_pos hlt]
  · intro hle
    rw [htarget, haccess, htop]
    simp [Nat.not_lt.2 hle]
  · intro j i hj
    -- the chain up to this node is a chain with as many keys as the node has subscripts
    have hle : j ≤ keys.length := by
      have := (List.getElem?_eq_some_iff.1 hj).1
      have := hchain.length_eq
      omega
    obtain ⟨q, u, hq, hfu, hnu, rfl, hsub⟩ := hchain.holds_inner hlast hp hft hnt hj
    have hcut := hchain.take hle
    have hcutLast : (nodes.take (j + 1)).getLast? = some u.id := by
      rw [List.take_add_one, hj]
      simp
    have hfound := hcut.accessAt_eq hcutLast hq hfu hnu hvar
    rw [List.length_take_of_le hle, hname, hdepth] at hfound
    refine ⟨fun hlt => ?_, fun hlt hinner => ?_, ?_⟩
    · rw [hfound, if_pos hlt]
    · rw [hfound, if_neg (by omega), if_pos hlt, if_pos (hsub hinner)]
    · rintro rfl
      refine ⟨⟨⟨var, u.id, (nodes.take (ty.keyDepth + 1)).tail⟩, ?_, rfl, rfl, hcut.filterMap_slice?⟩,
        fun hslot => ?_⟩
      · rw [hfound, if_neg (by omega), if_neg (by omega)]
      have hmem := hnew u.id (List.mem_cons_of_mem r (List.mem_of_getElem? hj))
      rw [(hkept _ hmem.1 hmem.2).2, htys _ _ hj, afterKey_iterate_keyDepth hslot]

/-- Two names that are to be keys. -/
def twoKeys : Store where
  nextId := ⟨2⟩
  nodes := [{ id := ⟨0⟩, kind := .name "owner" }, { id := ⟨1⟩, kind := .name "index" }]

/-- The type of a variable with one key and lists as values. -/
def listOf : Ty := .mapping .address (.dynArray .bool 4)

/-- The names as keys around `self.m`. -/
def twoKeysIndexed : Store where
  nextId := ⟨6⟩
  nodes := [
    { id := ⟨0⟩, parent := some ⟨4⟩, kind := .name "owner" },
    { id := ⟨1⟩, parent := some ⟨5⟩, kind := .name "index" },
    { id := ⟨2⟩, parent := some ⟨3⟩, kind := .name "self" },
    { id := ⟨3⟩, parent := some ⟨4⟩, ty := some listOf, kind := .member ⟨2⟩ "m" },
    { id := ⟨4⟩, parent := some ⟨5⟩, ty := some (.dynArray .bool 4), kind := .subscript ⟨3⟩ ⟨0⟩ },
    { id := ⟨5⟩, ty := some (.dynArray .bool 4), kind := .subscript ⟨4⟩ ⟨1⟩ }]

/-- The variable has one key, and the second subscript looks into the value. -/
theorem storageIndex_recognised_twoKeys :
    storageIndex "m" listOf [⟨0⟩, ⟨1⟩] twoKeys = .ok ⟨5⟩ twoKeysIndexed ∧ twoKeysIndexed.verify ⟨5⟩ = .ok () ∧
      twoKeysIndexed.targetAccess [⟨"m", ⟨9⟩, listOf, true⟩] ⟨5⟩ = .error (.unsupportedTarget "m" ⟨5⟩) ∧
      ∃ i a, twoKeysIndexed.accessAt [⟨"m", ⟨9⟩, listOf, true⟩] i = .ok (some a) ∧ a.keys twoKeysIndexed = [⟨0⟩] ∧
        twoKeysIndexed.ty? i = some (.dynArray .bool 4) := by
  have hbuilt : storageIndex "m" listOf [⟨0⟩, ⟨1⟩] twoKeys = .ok ⟨5⟩ twoKeysIndexed := by rfl
  have hverify : twoKeysIndexed.verify ⟨5⟩ = .ok () := by decide +kernel
  obtain ⟨r, nodes, -, hlength, -, -, -, hlong, -, -, hinner⟩ :=
    storageIndex_recognised (c := [⟨"m", ⟨9⟩, listOf, true⟩]) ⟨by decide, by decide, by decide⟩ hbuilt (by simp)
      (by decide) hverify (.here ⟨5⟩) (by decide) rfl rfl
  obtain ⟨i, hi⟩ : ∃ i, nodes[1]? = some i := ⟨_, List.getElem?_eq_getElem (by rw [hlength]; decide)⟩
  obtain ⟨⟨a, ha, -, -, hkeys⟩, hty⟩ := (hinner 1 i hi).2.2 rfl
  exact ⟨hbuilt, hverify, hlong (by decide), i, a, ha, hkeys, hty rfl⟩

end Build

end ContractTree
