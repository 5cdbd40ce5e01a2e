import ContractTree.Proofs.Hoisted
import ContractTree.Proofs.Site

/-!
Husks of accesses. When an access has been taken out of its tree, its keys go to the statement that stands for it,
and what is left, the subscripts around `self` and the member, is a string of single nodes that is discarded from
the outermost on (`Store.Keeps.stripped`).
-/

namespace ContractTree

namespace Tree

variable {c : Catalog} {t b x y : Tree} {ls ls' : List Link}

theorem id_wrap : (b.wrap ls).id = (ls.map Link.id).getLast?.getD b.id := by
  rcases List.eq_nil_or_concat ls with rfl | ⟨ls, l, rfl⟩
  · rfl
  · rw [List.concat_eq_append, wrap_concat]
    simp

theorem ty_wrap : (b.wrap ls).ty = (ls.map Link.ty).getLast?.getD b.ty := by
  rcases List.eq_nil_or_concat ls with rfl | ⟨ls, l, rfl⟩
  · rfl
  · rw [List.concat_eq_append, wrap_concat]
    simp

/-- The top of an access to a variable is a subscript, or a member of `self`. -/
theorem exists_self_of_reach {v : StorageVar} (hf : t.Fits) (h : t.reach c = some v) :
    ∃ i ty attr j ty', t.base = .node i ty (.member attr) [.leaf j ty' (.name "self")] [] [] ∧
      c.find? attr = some v := by
  have hfb := fits_base hf
  rw [reach] at h
  rcases hfb.member_cases with ⟨i, ty, attr, x, hx⟩ | hl
  · rw [hx, receiver?] at h
    split at h
    · next hself =>
      have hfx : x.Fits := by
        rw [hx] at hfb
        exact hfb.kid (by simp)
      obtain ⟨j, ty', l, hs, bs, os⟩ := x
      obtain rfl : l = .name "self" := hself
      obtain ⟨h1, h2, h3⟩ := ((fits_iff _).1 hfx).1
      simp only [heads_node, body_node, orelse_node, List.length_eq_zero_iff] at h1 h2 h3
      subst h1 h2 h3
      exact ⟨i, ty, attr, j, ty', hx, h⟩
    · cases h
  · rw [receiver?_of_label hl] at h
    cases h

end Tree

theorem Ctx.mem_ids_emit {K : Ctx} {i j : NodeId} {σ : Site} {es : List Tree} {x e : Tree} (h : K.site? i = some σ)
    (he : e ∈ es) (hj : j ∈ e.ids) : j ∈ ((K.emit es).plug x).ids := by
  obtain ⟨I, b, O, rfl, -, -, -, -, hemit⟩ := site?_split h
  rw [hemit, mem_ids_plug]
  refine .inl ?_
  clear hemit h
  induction I with
  | nil =>
    rw [List.nil_append, Ctx.ids, Frame.before_push]
    refine List.mem_cons_of_mem _ (List.mem_append_left _ (List.mem_flatMap.2 ⟨e, ?_, hj⟩))
    simp [he]
  | cons f I ih =>
    rw [List.cons_append, Ctx.ids]
    exact List.mem_cons_of_mem _ (List.mem_append_right _ ih)

namespace Store

variable {s : Store} {F : Forest} {H : List Node} {G : Outside} {p : Option NodeId} {c : Catalog} {t b : Tree}
  {ls : List Link}

/-- The keys of a chain, in source order. -/
theorem Holds.keys (h : s.Holds p (b.wrap ls)) :
    (ls.map Link.id).filterMap (fun i => (s.kind? i).bind Kind.slice?) = ls.map fun l => l.key.id := by
  induction ls using List.reverseRecOn generalizing p with
  | nil => rfl
  | append_singleton ls l ih =>
    rw [Tree.wrap_concat] at h
    have hk : s.kind? l.id = some (.subscript (b.wrap ls).id l.key.id) := h.kind?
    rw [List.map_append, List.filterMap_append, ih (h.kid (by simp)), List.map_append]
    simp [hk, Kind.slice?]

/-- The keys of an access as loose trees. -/
def keyForest (ls : List Link) : Forest := ls.map fun l => (some l.id, l.key)

@[simp] theorem map_snd_keyForest : (keyForest ls).map Prod.snd = ls.map Link.key := by simp [keyForest]

theorem Holds.access_keys (h : s.Holds p t) (hf : t.Fits) (v : StorageVar) (top : NodeId) :
    Access.keys ⟨v, top, t.links.map Link.id⟩ s = (keyForest t.links).map fun x => x.2.id := by
  rw [← Tree.plug_links hf] at h
  simpa [Access.keys, keyForest, Function.comp_def] using h.keys

/-- **An access is its keys and a string of single nodes.** -/
theorem Keeps.stripped {v : StorageVar} (h : s.Keeps ((p, t) :: F) H G) (hv : t.reach c = some v) :
    ∃ n N, s.Keeps (keyForest t.links ++ F) (n :: N ++ H) G ∧ n.id = t.id ∧ n.parent = p ∧
      ∀ X : List NodeId, (∀ l ∈ t.links, l.key.id ∈ X) → Strung X (n :: N) := by
  have hf : t.Fits := h.fits _ List.mem_cons_self
  obtain ⟨i, ty, attr, j, ty', hb, -⟩ := Tree.exists_self_of_reach hf hv
  have hlb := Tree.label_base hf
  rw [← Tree.plug_links hf] at h ⊢
  generalize t.links = ls at h ⊢
  rw [Tree.links_wrap hlb]
  clear hv hf
  induction ls using List.reverseRecOn generalizing p F H with
  | nil =>
    rw [Tree.wrap_nil, hb] at h
    have h1 := h.felled (by simp)
    have h2 := Keeps.felled (p := some i) (t := .leaf j ty' (.name "self")) (by simpa using h1)
      (by simp [Tree.leaf])
    refine ⟨_, [_], h2.perm (List.Perm.refl _) (List.Perm.swap _ _ _), ?_, rfl, fun X _ => ?_⟩
    · rw [Tree.wrap_nil, hb]
      rfl
    · refine ⟨⟨[], by simp, rfl⟩, ?_, ⟨[], by simp, rfl⟩, by simp, trivial⟩
      rintro m hm
      obtain rfl := Option.some.inj hm
      rfl
  | append_singleton ls l ih =>
    rw [Tree.wrap_concat] at h
    obtain ⟨n, N, hN, hid, hpar, hst⟩ := ih (h.felled (by simp))
    refine ⟨Tree.root (.node l.id l.ty .subscript [t.base.wrap ls, l.key] [] []) p, n :: N, hN.perm ?_ ?_, ?_, rfl,
      fun X hX => ?_⟩
    · simp [keyForest]
    · exact List.perm_middle
    · rw [Tree.wrap_concat]
      rfl
    · refine ⟨⟨[l.key.id], ?_, ?_⟩, ?_, hst X fun k hk => hX k (List.mem_append_left _ hk)⟩
      · simpa using hX l (by simp)
      · show [(t.base.wrap ls).id, l.key.id] = _
        simp [hid]
      · rintro m hm
        obtain rfl := Option.some.inj hm
        exact hpar

end Store

end ContractTree
