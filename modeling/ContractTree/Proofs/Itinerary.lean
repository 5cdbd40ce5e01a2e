import ContractTree.Proofs.Persistence
import ContractTree.Proofs.Tour

/-!
Where a walk goes. A walk whose visitor leaves the store alone comes to an end and visits each node of the module
once, in the order in which a document lists them. A walk whose visitor inserts statements, replaces the node that
it visits and appends declarations visits each node of before once, except below what was replaced; it visits a
replacement next and what was appended later, and does not visit what was inserted (`Visitor.walk_visits`). This
fails for a module inside the module that is replaced: it still counts as attached, as a module without a parent
does, and the walk goes on below it (`Visitor.walk_leaves_module`).
-/

namespace ContractTree

open Edit (Primitive Handled)

namespace Visitor

variable {ε σ : Type} {v : Visitor ε σ} {m : NodeId} {K : Ctx} {t T : Tree} {w w' : Workspace σ}

/-- The visitor never fails and leaves the store alone. -/
def Idle (v : Visitor ε σ) : Prop := ∀ tag i m w, ∃ own, v.visit tag i m w = .ok () { w with own }

section Idle

variable (hv : v.Idle)

include hv

theorem settle_idle (fuel : Nat) (h : Standing m (K.plug t) w.store) :
    ∃ own, v.settle m (fuel + 1) t.id w = .ok (some t.id) { w with own } := by
  have hnode : Work.edit v.wrap (Edit.node t.id) w = .ok (t.root K.parent) w := by
    unfold Work.edit
    rw [Edit.node_apply, h.module.holds.inside.top]
  obtain ⟨own, hvisit⟩ := hv (t.root K.parent).tag t.id m w
  refine ⟨own, ?_⟩
  have hdispatch : v.dispatch t.id m w = .ok () { w with own } := (bind_of_ok hnode).trans hvisit
  have hatt : w.store.isAttached t.id = true := h.isAttached (Ctx.id_mem_plug _ _)
  have hstore : (Work.store : Work ε σ Store) { w with own } = .ok w.store { w with own } := rfl
  rw [settle, bind_of_ok hdispatch, bind_of_ok hstore, if_pos hatt]
  rfl

theorem walkNode_idle (fuel : Nat) (h : Standing m (K.plug t) w.store) (hfuel : 2 * t.ids.length ≤ fuel) :
    ∃ own, v.walkNode m fuel t.id w = .ok (some t.id) { w with own } := by
  induction t generalizing K w fuel with
  | step t ih =>
    -- the children, from one of them on
    have hchildren : ∀ (rest done : List Tree) (fuel : Nat) (w : Workspace σ), Standing m (K.plug t) w.store →
        t.kids = done ++ rest → 2 * (rest.flatMap Tree.ids).length + 1 ≤ fuel →
        ∃ own, v.walkChildren m fuel t.id done.length w = .ok (some t.id) { w with own } := by
      intro rest
      induction rest with
      | nil =>
        intro done fuel w h hkids hfuel
        obtain ⟨fuel, rfl⟩ : ∃ n, fuel = n + 1 := ⟨fuel - 1, by omega⟩
        rw [List.append_nil] at hkids
        rw [← hkids]
        exact ⟨w.own, walkChildren_last h⟩
      | cons k rest ihrest =>
        intro done fuel w h hkids hfuel
        obtain ⟨fuel, rfl⟩ : ∃ n, fuel = n + 1 := ⟨fuel - 1, by omega⟩
        have hpos := k.length_ids_pos
        rw [List.flatMap_cons, List.length_append] at hfuel
        obtain ⟨f, rfl, rfl, rfl⟩ := Tree.exists_frame_between hkids
        have hf : Standing m (Ctx.plug (f :: K) k) w.store := h
        obtain ⟨own, hwalk⟩ := ih k (by simp) (K := f :: K) fuel hf (by omega)
        obtain ⟨own', hrest⟩ := ihrest (f.before ++ [k]) fuel { w with own } h (by rw [Frame.kids_plug]) (by omega)
        refine ⟨own', ?_⟩
        rw [Frame.id_plug, walkChildren_next hf hwalk rfl hf, ← Frame.id_plug f [k]]
        rw [List.length_append] at hrest
        exact hrest
    have hpos := t.length_ids_pos
    obtain ⟨fuel, rfl⟩ : ∃ n, fuel = n + 2 := ⟨fuel - 2, by omega⟩
    obtain ⟨own, hset⟩ := settle_idle hv fuel h
    have hlen : t.ids.length = (t.kids.flatMap Tree.ids).length + 1 := by rw [Tree.ids_eq, List.length_cons]
    obtain ⟨own', hrest⟩ := hchildren t.kids [] (fuel + 1) { w with own } h rfl (by omega)
    refine ⟨own', ?_⟩
    rw [walkNode, bind_of_ok hset]
    exact hrest

/-- A walk that has fuel for the nodes comes to an end. -/
theorem walk_idle (fuel : Nat) (h : Standing m T w.store) (hfuel : 2 * w.store.size ≤ fuel) :
    ∃ own, v.walk fuel m w = .ok () { w with own } := by
  obtain ⟨hs, hT, rfl⟩ := h
  have hlen := hT.holds.length_le hT.nodup
  obtain ⟨own, hwalk⟩ := walkNode_idle hv (m := T.id) (K := []) fuel ⟨hs, hT, rfl⟩ (by omega)
  refine ⟨own, ?_⟩
  have hnode : Work.edit v.wrap (Edit.node T.id) w = .ok (T.root none) w := by
    unfold Work.edit
    rw [Edit.node_apply, hT.holds.top]
  rw [walk, bind_of_ok hnode, if_pos (by exact hT.fits.isModule_kind.2 hT.label), bind_of_ok hwalk]
  rfl

/-- The visits of an idle visitor come to no deed. -/
theorem deeds_idle {L : List Visit} (hL : ∀ e ∈ L, v.Made m e) : Deeds (fun _ => {}) m L := by
  rintro ⟨i, s, s'⟩ he K t hstands -
  obtain ⟨tag, own, w, hvisit, rfl⟩ := hL _ he
  obtain ⟨own', hidle⟩ := hv tag i m { store := s, own }
  obtain rfl : { store := s, own := own' } = w := (EStateM.Result.ok.inj (hidle.symm.trans hvisit)).2
  exact ⟨hstands.sound, by simpa using hstands.module, fun _ => ⟨rfl, rfl⟩, by simp,
    Nat.le_refl _, by simp [Deed.ids, Deed.filling],
    by simp [Deed.ids, Deed.filling]⟩

end Idle

/-! ## Deeds of handlers -/

/-- Each visit is explained by calls that a handler may make, and no module is replaced. -/
structure Explained (m : NodeId) (plan : Visit → List Primitive) (L : List Visit) : Prop where
  handled : ∀ e ∈ L, ∃ place, Handled m e.node e.before (plan e) place e.after
  module : ∀ e ∈ L, (e.before.kind? e.node).any Kind.isModule → ∀ N, .replace e.node N ∉ plan e

/-- The deeds that explain the visits. -/
theorem Explained.exists_deeds {plan : Visit → List Primitive} {L : List Visit} (h : Explained m plan L) :
    ∃ deed : Visit → Deed, Deeds deed m L ∧ ∀ e ∈ L, ∀ (K : Ctx) (t : Tree), Standing m (K.plug t) e.before →
      t.id = e.node → Edit.Comes e.node (plan e) (deed e) := by
  have hdeed : ∀ e : Visit, ∃ d : Deed, e ∈ L → ∀ (K : Ctx) (t : Tree), Standing m (K.plug t) e.before →
      t.id = e.node → Acts K t d e ∧ Edit.Comes e.node (plan e) d := by
    intro e
    by_cases he : ∃ (K : Ctx) (t : Tree), e ∈ L ∧ Standing m (K.plug t) e.before ∧ t.id = e.node
    · obtain ⟨K, t, he, hstands, hid⟩ := he
      obtain ⟨place, hplace⟩ := h.handled e he
      rw [← hstands.id] at hplace
      obtain ⟨d, hacts, hcomes⟩ := hplace.exists_acts hstands.sound hstands.module hid
        fun hl => h.module e he <| by
        rw [← hid, hstands.module.holds.inside.kind?]
        exact (Ctx.fits_of_plug hstands.module.fits).isModule_kind.2 hl
      refine ⟨d, fun _ K' t' hstands' hid' => ?_⟩
      obtain ⟨rfl, rfl⟩ := hstands.unique hstands' (hid.trans hid'.symm)
      exact ⟨hacts, hcomes⟩
    · exact ⟨{}, fun hL K t hstands hid => absurd ⟨K, t, hL, hstands, hid⟩ he⟩
  choose deed hdeed using hdeed
  exact ⟨deed, fun e he K t hs hid => (hdeed e he K t hs hid).1, fun e he K t hs hid => (hdeed e he K t hs hid).2⟩

/-! ## The visits -/

/-- A node below the top of a tree is reached by a path that goes down. -/
theorem exists_path_below {s : Store} {p : Option NodeId} {i : NodeId} (h : s.Holds p t) (hf : t.Fits)
    (hi : i ∈ t.kids.flatMap Tree.ids) : ∃ k path, s.Reaches t.id (k :: path) i := by
  obtain ⟨u, hu, hi⟩ := List.mem_flatMap.1 hi
  obtain ⟨k, hk⟩ := List.mem_iff_getElem?.1 hu
  obtain ⟨path, hpath⟩ := ((h.kid hu).mem_ids_iff (hf.kid hu)).1 hi
  exact ⟨k, path, .down (by rw [h.children hf]; simp [hk]) hpath⟩

/-- The visits of a walk that succeeds, when they come to deeds. -/
structure Surveys (deed : Visit → Deed) (m : NodeId) (T : Tree) (s s' : Store) (L : List Visit) : Prop where
  stands : Standing m T s
  deeds : Deeds deed m L
  met : Met m L
  surveyed : Surveyed deed (FoundIn m) T L
  chained : Chained s L s'

theorem surveys_of_walk {deed : Visit → Deed} {fuel : Nat} (h : Standing m T w.store)
    (hrun : v.walk fuel m w = .ok () w') (hd : Deeds deed m (v.visits fuel m w)) :
    Surveys deed m T w.store w'.store (v.visits fuel m w) := by
  have hlogged := v.exists_logged m hrun
  obtain ⟨L, hlog, hmet, hsurveyed⟩ := surveyed_of_walk h hlogged hd
  obtain ⟨L', hlog', hchained, -⟩ := (v.logs_walk m fuel _).of_ok hlogged
  obtain rfl : v.visits fuel m w = L := hlog
  obtain rfl : v.visits fuel m w = L' := hlog'
  exact ⟨h, hd, hmet, hsurveyed, hchained⟩

/-- The visits that a walk writes down were made. -/
theorem made_of_walk {fuel : Nat} (hrun : v.walk fuel m w = .ok () w') : ∀ e ∈ v.visits fuel m w, v.Made m e := by
  obtain ⟨L, hlog, -, hmade⟩ := (v.logs_walk m fuel _).of_ok (v.exists_logged m hrun)
  obtain rfl : v.visits fuel m w = L := hlog
  exact hmade

namespace Surveys

variable {deed : Visit → Deed} {s s' : Store} {L : List Visit}

theorem newIn (h : Surveys deed m T s s' L) : ∀ e ∈ L, (deed e).NewIn e := by
  intro e he
  obtain ⟨K, t, hstands, hid⟩ := h.met e he
  exact (h.deeds e he K t hstands hid).new

/-- What visits put into the tree is new, and not twice in the tree. -/
theorem nodup (h : Surveys deed m T s s' L) : (T.ids ++ planted deed L).Nodup := by
  obtain ⟨-, hnd, hnew⟩ := h.chained.nodup_planted h.newIn
  refine List.nodup_append'.2 ⟨h.stands.module.nodup, hnd, fun i hi hi' => ?_⟩
  exact Nat.not_lt_of_le (hnew i hi').1 (h.stands.sound.below i (h.stands.module.holds.mem_ids hi))

/-- Nothing at or below a statement that was inserted is visited. -/
theorem notMem_of_inserted (h : Surveys deed m T s s' L) {e : Visit} (he : e ∈ L) {u : Tree}
    (hu : u ∈ (deed e).inserted) {path : List Nat} {j : NodeId} (hj : e.after.Reaches u.id path j) :
    j ∉ visited L := by
  obtain ⟨K, t, hstands, hid⟩ := h.met e he
  have hacts := h.deeds e he K t hstands hid
  have hK : K ≠ [] := by
    rintro rfl
    simp [(hacts.root rfl).1] at hu
  have hbody := Ctx.bodied_of_plug hK hstands.module.fits hstands.module.label
  have hresult := hacts.module
  rw [Deed.result_eq hbody, ← Ctx.emit_extend] at hresult
  obtain ⟨D, hD⟩ := hbody.extend.exists_plug_emit hu
  rw [← hD] at hresult
  have hmem := (hresult.holds.inside.mem_ids_iff (Ctx.fits_of_plug hresult.fits)).2 ⟨path, hj⟩
  exact h.surveyed.notMem_of_inserted h.nodup he (List.mem_flatMap.2 ⟨u, hu, hmem⟩)

/-- A tree that was appended is visited once, and nothing that is then in front of it is visited afterwards. -/
theorem exists_appended (h : Surveys deed m T s s' L) {A B : List Visit} {e : Visit} (hL : L = A ++ e :: B)
    {G : Tree} (hG : G ∈ (deed e).appended) : (visited L).count G.id = 1 ∧ ∃ B₁ x B₂, B = B₁ ++ x :: B₂ ∧
      x.node = G.id ∧
      ∀ xs ys, x.before.children m = xs ++ G.id :: ys → ∀ b ∈ xs, ∀ path i, x.before.Reaches b path i →
      i ∉ visited B₂ := by
  obtain ⟨as, bs, hsplit⟩ := List.append_of_mem hG
  obtain ⟨B₁, x, B₂, rfl, hx, ⟨ty, done, hfound⟩, hafter⟩ := h.surveyed.exists_appended hL hsplit
  refine ⟨?_, B₁, x, B₂, rfl, hx, fun xs ys hchildren b hb path i hpath hi => ?_⟩
  · refine Nat.le_antisymm (h.surveyed.count_le_one h.nodup) (List.count_pos_iff.2 ?_)
    simp [hL, hx]
  · obtain ⟨hsound, hmodule, -⟩ := hfound
    have hids := hmodule.nodup
    rw [Tree.ids_eq, List.nodup_cons, Tree.kids_node, List.nil_append, List.append_nil, List.flatMap_append,
      List.nodup_append'] at hids
    obtain ⟨-, -, hrest, hapart⟩ := hids
    have hnd := Tree.nodup_map_id_kids hmodule.nodup
    have hkids : x.before.children m = (done ++ G :: (bs ++ appendedAll deed B₁)).map Tree.id := by
      simpa using hmodule.holds.children hmodule.fits
    rw [Tree.kids_node, List.nil_append, List.append_nil, List.map_append, List.map_cons, List.nodup_append',
      List.nodup_cons] at hnd
    rw [hkids, List.map_append, List.map_cons,
      List.append_cons_inj_of_notMem (fun h => hnd.2.2 h List.mem_cons_self) hnd.2.1.1] at hchildren
    obtain ⟨rfl, -⟩ := hchildren
    obtain ⟨u, hu, rfl⟩ := List.mem_map.1 hb
    have hkid : u ∈ (Tree.node m ty .module [] (done ++ G :: (bs ++ appendedAll deed B₁)) []).kids := by simp [hu]
    have hiu : i ∈ u.ids := ((hmodule.holds.kid hkid).mem_ids_iff (hmodule.fits.kid hkid)).2 ⟨path, hpath⟩
    rcases hafter i hi with hbehind | ⟨e', he', hdeed⟩
    · exact hapart (List.mem_flatMap.2 ⟨u, hu, hiu⟩) hbehind
    · -- what later visits put into the tree was not there yet
      have hchain := h.chained
      rw [hL, show A ++ e :: (B₁ ++ x :: B₂) = (A ++ e :: B₁) ++ x :: B₂ by simp, Chained.append] at hchain
      obtain ⟨s₁, -, rfl, hchain⟩ := hchain
      have hsuffix : ∀ e' ∈ x :: B₂, (deed e').NewIn e' :=
        fun e' he' => h.newIn e' (by rw [hL]; simp at he' ⊢; tauto)
      have hle := ((show Chained x.before (x :: B₂) s' from ⟨rfl, hchain⟩).nodup_planted hsuffix).2.2 i
        (List.mem_flatMap.2 ⟨e', he', hdeed⟩)
      exact Nat.not_lt_of_le hle.1 (hsound.below i (hmodule.holds.mem_ids (Tree.ids_subset_of_mem_kids hkid hiu)))

/-- A node of before that is not below a replaced one is visited once. -/
theorem count_eq_one (h : Surveys deed m T s s' L) {i : NodeId} {path : List Nat} (hi : s.Reaches m path i)
    (hbelow : ∀ e ∈ L, (deed e).replacement ≠ none → ∀ k path, ¬ s.Reaches e.node (k :: path) i) :
    (visited L).count i = 1 := by
  obtain ⟨-, hT, rfl⟩ := h.stands
  refine h.surveyed.count_original h.nodup ((hT.holds.mem_ids_iff hT.fits).2 ⟨path, hi⟩) ?_
  rintro ⟨e, he, hr, u, hu, t, ⟨C, rfl⟩, hid, hmem⟩
  obtain rfl := List.mem_singleton.1 hu
  obtain ⟨k, path, hpath⟩ := exists_path_below hT.holds.inside (Ctx.fits_of_plug hT.fits) hmem
  exact hbelow e he hr k path (hid ▸ hpath)

end Surveys

/-- What the visits `L` are, when the walk began with the store `s` and each visit made the calls that are planned
for it. -/
structure Itinerary (m : NodeId) (plan : Visit → List Primitive) (s : Store) (L : List Visit) : Prop where
  /-- Neither a statement that was inserted is visited nor what is below it. -/
  inserted : ∀ e ∈ L, ∀ stmt anchor block, .insertBefore stmt anchor block ∈ plan e →
    ∀ path j, e.after.Reaches stmt path j → j ∉ visited L
  /-- The node that took the place of the visited one is visited next. -/
  replaced : ∀ A e B, L = A ++ e :: B → ∀ new, .replace e.node new ∈ plan e → ∃ x B', B = x :: B' ∧ x.node = new
  /-- A declaration that was appended is visited once, later, and when nothing in the items in front of it is still
  to be visited. -/
  appended : ∀ A e B, L = A ++ e :: B → ∀ decl, .appendDeclaration m decl ∈ plan e → (visited L).count decl = 1 ∧
    ∃ B₁ x B₂, B = B₁ ++ x :: B₂ ∧ x.node = decl ∧ ∀ front back, x.before.children m = front ++ decl :: back →
      ∀ item ∈ front, ∀ path j, x.before.Reaches item path j → j ∉ visited B₂
  /-- Every node of the module that is not below a replaced one is visited once. -/
  original : ∀ path i, s.Reaches m path i → (∀ e ∈ L, ∀ new, .replace e.node new ∈ plan e → ∀ k path,
    ¬ s.Reaches e.node (k :: path) i) → (visited L).count i = 1

theorem Surveys.itinerary {deed : Visit → Deed} {plan : Visit → List Primitive} {s s' : Store} {L : List Visit}
    (h : Surveys deed m T s s' L) (hplan : ∀ e ∈ L, Edit.Comes e.node (plan e) (deed e)) :
    Itinerary m plan s L where
  inserted e he stmt anchor block hcall path j hj := by
    have hmem : stmt ∈ (deed e).inserted.map Tree.id := by
      rw [(hplan e he).inserted]
      exact List.mem_filterMap.2 ⟨_, hcall, rfl⟩
    obtain ⟨u, hu, rfl⟩ := List.mem_map.1 hmem
    exact h.notMem_of_inserted he hu hj
  replaced A e B hL new hcall := by
    obtain ⟨N, hN, rfl⟩ := Option.map_eq_some_iff.1 (((hplan e (by simp [hL])).replaced new).2 hcall)
    exact h.surveyed.follows A e B hL N hN
  appended A e B hL decl hcall := by
    have hmem : decl ∈ (deed e).appended.map Tree.id := by
      rw [(hplan e (by simp [hL])).appended]
      exact List.mem_filterMap.2 ⟨_, hcall, rfl⟩
    obtain ⟨G, hG, rfl⟩ := List.mem_map.1 hmem
    exact h.exists_appended hL hG
  original path i hi hbelow := by
    refine h.count_eq_one hi fun e he hr => ?_
    obtain ⟨N, hN⟩ := Option.ne_none_iff_exists'.1 hr
    exact hbelow e he N.id (((hplan e he).replaced N.id).1 (by rw [hN]; rfl))

/-- **Where a walk goes.** Over a verified module, a walk whose visitor leaves the store alone comes to an end and
visits exactly the nodes of the module, each once, in the order in which a document lists them. If the visits only
make calls that a handler may make and replace no module, a walk that succeeds visits what the itinerary says. -/
theorem walk_visits (v : Visitor ε σ) (m : NodeId) (w : Workspace σ) (hs : w.store.Sound)
    (hm : (w.store.kind? m).any Kind.isModule) (hv : w.store.verify m = .ok ()) :
    (v.Idle → ∀ fuel, 2 * w.store.size ≤ fuel → ∃ own doc, v.walk fuel m w = .ok () { w with own } ∧
      Document.capture w.store m = .ok doc ∧ visited (v.visits fuel m w) = doc.nodes.map Node.id ∧
      (visited (v.visits fuel m w)).Nodup ∧ ∀ i, i ∈ visited (v.visits fuel m w) ↔
      ∃ path, w.store.Reaches m path i) ∧
    ∀ fuel w', v.walk fuel m w = .ok () w' → ∀ plan, Explained m plan (v.visits fuel m w) →
      Itinerary m plan w.store (v.visits fuel m w) := by
  obtain ⟨T, rfl, hT⟩ := Store.exists_holdsModule hs.nodup hm hv
  have hstands : Standing T.id T w.store := ⟨hs, hT, rfl⟩
  refine ⟨fun hidle fuel hfuel => ?_, fun fuel w' hrun plan hplan => ?_⟩
  · obtain ⟨own, hwalk⟩ := walk_idle hidle fuel hstands hfuel
    have hsurveys := surveys_of_walk hstands hwalk (deeds_idle hidle (made_of_walk hwalk))
    have hvisited : visited (v.visits fuel T.id w) = T.ids := hsurveys.surveyed.visited_eq fun _ _ => rfl
    refine ⟨own, Document.ofTree T w.store.nextId, hwalk, ?_, ?_, ?_, fun i => ?_⟩
    · rw [Document.capture, Document.captureWithin_eq hT.holds hT.fits
        (Nat.le_succ_of_le (hT.holds.length_le hT.nodup))]
      rfl
    · rw [hvisited]
      exact (Tree.map_id_nodes none T).symm
    · rw [hvisited]
      exact hT.nodup
    · rw [hvisited, hT.holds.mem_ids_iff hT.fits]
  · obtain ⟨deed, hdeeds, hcomes⟩ := hplan.exists_deeds
    have hsurveys := surveys_of_walk hstands hrun hdeeds
    refine hsurveys.itinerary fun e he => ?_
    obtain ⟨K, t, ht, hid⟩ := hsurveys.met e he
    exact hcomes e he K t ht hid

theorem fresh_of_holds {s : Store} {lo : NodeId} {p : Option NodeId} (h : s.Holds p t) (hf : t.Fits)
    (hn : t.ids.Nodup) (hlo : ∀ j ∈ t.ids, lo ≤ j) : s.Fresh lo t.id := by
  refine ⟨Store.linked_iff.2 ⟨t, rfl, hf, hn, ?_⟩, fun path j hj => hlo j ((h.mem_ids_iff hf).2 ⟨path, hj⟩)⟩
  rwa [Store.parent?, h.top]

theorem fresh_leaf {s : Store} {lo : NodeId} (i : NodeId) (l : Label) (hf : (Tree.node i none l [] [] []).Fits)
    (hfind : s.find? i = some { id := i, kind := l.kind [] [] [] }) (hlo : lo ≤ i) : s.Fresh lo i :=
  fresh_of_holds (t := .node i none l [] [] []) (p := none) (Store.holds_iff.2 ⟨hfind, by simp⟩) hf
    (by simp [Tree.ids_eq]) (by simpa [Tree.ids_eq] using hlo)

/-- The visitor that makes the calls when it visits the node, and leaves all other nodes alone. -/
def performing (i : NodeId) (calls : List Primitive) : Visitor StructuralError Unit where
  wrap := id
  visit _ j _ := if j = i then Work.edit id (calls.forM fun p => do let _ ← p.run) else pure ()

theorem idle_performing (i : NodeId) : (performing i []).Idle := by
  intro tag j m w
  by_cases hj : j = i
  · exact ⟨(), by simp [performing, hj]; rfl⟩
  · exact ⟨(), by simp [performing, hj]; rfl⟩

/-- A function whose body is the name `x`, and a `pass` behind it. -/
def naming : Store where
  nextId := ⟨5⟩
  nodes := [
    { id := ⟨0⟩, kind := .module [⟨1⟩, ⟨4⟩] },
    { id := ⟨1⟩, parent := some ⟨0⟩, kind := .functionDef "f" [] [⟨2⟩] .external .view },
    { id := ⟨2⟩, parent := some ⟨1⟩, kind := .exprStmt ⟨3⟩ },
    { id := ⟨3⟩, parent := some ⟨2⟩, kind := .name "x" },
    { id := ⟨4⟩, parent := some ⟨0⟩, kind := .pass }]

/-- The name is replaced by `y`, and a `pass` is put in front of its statement and another at the end of the
module. -/
def substitution : List Primitive := [.leaf .pass none, .leaf (.name "y") none, .leaf .pass none,
    .insertBefore ⟨5⟩ ⟨2⟩ ⟨1⟩,
  .replace ⟨3⟩ ⟨6⟩, .appendDeclaration ⟨0⟩ ⟨7⟩]

def substitutionPlan (e : Visit) : List Primitive := if e.node = ⟨3⟩ then substitution else []

theorem handled_substitution : ∃ s', Handled ⟨0⟩ ⟨3⟩ naming substitution ⟨6⟩ s' ∧
    (performing ⟨3⟩ substitution).walk 30 ⟨0⟩ ⟨naming, ()⟩ = .ok () ⟨s', ()⟩ ∧
    (performing ⟨3⟩ substitution).visits 30 ⟨0⟩ ⟨naming, ()⟩ = [⟨⟨0⟩, naming, naming⟩, ⟨⟨1⟩, naming, naming⟩,
      ⟨⟨2⟩, naming, naming⟩, ⟨⟨3⟩, naming, s'⟩, ⟨⟨6⟩, s', s'⟩, ⟨⟨4⟩, s', s'⟩, ⟨⟨7⟩, s', s'⟩] := by
  have hpass : ∀ i, (Tree.node i none .pass [] [] []).Fits :=
    fun _ => (Tree.fits_iff _).2 ⟨⟨rfl, rfl, rfl⟩, by simp⟩
  have hname : (Tree.node ⟨6⟩ none (.name "y") [] [] []).Fits := (Tree.fits_iff _).2 ⟨⟨rfl, rfl, rfl⟩, by simp⟩
  have hfirst : Handled ⟨0⟩ ⟨3⟩ naming _ _ _ := .call (p := .leaf .pass none) .start trivial rfl
  have hsecond : Handled ⟨0⟩ ⟨3⟩ naming _ _ _ := .call (p := .leaf (.name "y") none) hfirst trivial rfl
  have hthird : Handled ⟨0⟩ ⟨3⟩ naming _ _ _ := .call (p := .leaf .pass none) hsecond trivial rfl
  have hinsert : Handled ⟨0⟩ ⟨3⟩ naming _ _ _ := .call (p := .insertBefore ⟨5⟩ ⟨2⟩ ⟨1⟩) hthird
    ⟨fresh_leaf ⟨5⟩ .pass (hpass _) rfl (by decide), rfl⟩ rfl
  have hreplace : Handled ⟨0⟩ ⟨3⟩ naming _ _ _ := .call (p := .replace ⟨3⟩ ⟨6⟩) hinsert
    ⟨rfl, fresh_leaf ⟨6⟩ (.name "y") hname rfl (by decide)⟩ rfl
  have happend : Handled ⟨0⟩ ⟨3⟩ naming _ _ _ := .call (p := .appendDeclaration ⟨0⟩ ⟨7⟩) hreplace
    ⟨rfl, fresh_leaf ⟨7⟩ .pass (hpass _) rfl (by decide)⟩ rfl
  exact ⟨_, happend, by rfl, by decide +kernel⟩

/-- A walk that edits nothing goes over the function and the `pass`. One that does the substitution does not see
the first new `pass`, goes on with the new name, and comes to the second `pass` last. -/
theorem walk_visits_substitution : (∃ doc, Document.capture naming ⟨0⟩ = .ok doc ∧
      visited ((performing ⟨3⟩ []).visits 10 ⟨0⟩ ⟨naming, ()⟩) = doc.nodes.map Node.id) ∧
    visited ((performing ⟨3⟩ substitution).visits 30 ⟨0⟩ ⟨naming, ()⟩) = [⟨0⟩, ⟨1⟩, ⟨2⟩, ⟨3⟩, ⟨6⟩, ⟨4⟩, ⟨7⟩] ∧
    Itinerary ⟨0⟩ substitutionPlan naming ((performing ⟨3⟩ substitution).visits 30 ⟨0⟩ ⟨naming, ()⟩) := by
  have hs : naming.Sound := ⟨by decide, by decide, by decide⟩
  obtain ⟨-, doc, -, hdoc, hvisited, -⟩ :=
    (walk_visits (performing ⟨3⟩ []) ⟨0⟩ ⟨naming, ()⟩ hs (by decide) (by decide +kernel)).1
    (idle_performing _) 10 (by decide)
  obtain ⟨s', hhandled, hwalk, hvisits⟩ := handled_substitution
  refine ⟨⟨doc, hdoc, hvisited⟩, by rw [hvisits]; rfl, ?_⟩
  refine (walk_visits _ ⟨0⟩ ⟨naming, ()⟩ hs (by decide) (by decide +kernel)).2 30 _ hwalk _ ⟨?_, ?_⟩
  · rw [hvisits]
    simp only [List.forall_mem_cons]
    exact ⟨⟨_, .start⟩, ⟨_, .start⟩, ⟨_, .start⟩, ⟨_, hhandled⟩, ⟨_, .start⟩, ⟨_, .start⟩, ⟨_, .start⟩, by simp⟩
  · -- only the name is replaced
    intro e he hmodule N hN
    rw [hvisits] at he
    simp only [List.mem_cons, List.not_mem_nil, or_false] at he
    rcases he with rfl | rfl | rfl | rfl | rfl | rfl | rfl
    all_goals revert hmodule hN; simp [substitutionPlan]
    exact fun hmodule => absurd hmodule (by decide)

/-- A module inside a module. -/
def nested : Store where
  nextId := ⟨3⟩
  nodes := [
    { id := ⟨0⟩, kind := .module [⟨1⟩] },
    { id := ⟨1⟩, parent := some ⟨0⟩, kind := .module [⟨2⟩] },
    { id := ⟨2⟩, parent := some ⟨1⟩, kind := .pass }]

/-- The inner module is replaced by a `pass`. The walk does not go on with the `pass`, but with what is below the
inner module. -/
theorem walk_leaves_module : nested.Sound ∧ nested.verify ⟨0⟩ = .ok () ∧
    ∃ s', Handled ⟨0⟩ ⟨1⟩ nested [.leaf .pass none, .replace ⟨1⟩ ⟨3⟩] ⟨3⟩ s' ∧
      (performing ⟨1⟩ [.leaf .pass none, .replace ⟨1⟩ ⟨3⟩]).walk 20 ⟨0⟩ ⟨nested, ()⟩ = .ok () ⟨s', ()⟩ ∧
      (performing ⟨1⟩ [.leaf .pass none, .replace ⟨1⟩ ⟨3⟩]).visits 20 ⟨0⟩ ⟨nested, ()⟩ =
        [⟨⟨0⟩, nested, nested⟩, ⟨⟨1⟩, nested, s'⟩, ⟨⟨2⟩, s', s'⟩] := by
  have hleaf : Handled ⟨0⟩ ⟨1⟩ nested _ _ _ := .call (p := .leaf .pass none) .start trivial rfl
  have hreplace : Handled ⟨0⟩ ⟨1⟩ nested _ _ _ := .call (p := .replace ⟨1⟩ ⟨3⟩) hleaf
    ⟨rfl, fresh_leaf ⟨3⟩ .pass ((Tree.fits_iff _).2 ⟨⟨rfl, rfl, rfl⟩, by simp⟩) rfl (by decide)⟩ rfl
  exact ⟨⟨by decide, by decide, by decide⟩, by decide +kernel, _, hreplace, by rfl, by decide +kernel⟩

end Visitor

end ContractTree
