import ContractTree.Document
import ContractTree.Proofs.JsonText

/-!
Documents as text. Every reader takes back what its writer wrote: types, nodes of every kind, and whole documents
(`Document.parse?_text`). The only thing that can be lost is a type that is nested too deep for the reader, and
with it the document: a document, its list of nodes and a node are three levels, and what is left of the limit is
for the types.
-/

namespace ContractTree

namespace Json

/-! ## Fields of an object -/

variable {xs ys : List (String × Json)} {name : String} {j : Json}

theorem field_append_left (h : name ∉ ys.map Prod.fst) : field (xs ++ ys) name = field xs name := by
  have hys : ys.filter (·.1 = name) = [] := by
    rw [List.filter_eq_nil_iff]
    intro f hf
    have hne : f.1 ≠ name := fun he => h (he ▸ List.mem_map_of_mem hf)
    simpa using hne
  rw [field, field, List.filter_append, hys, List.append_nil]

theorem clipFields_eq (n : Nat) (fields : List (String × Json)) :
    clipFields n fields = fields.map fun f => (f.1, f.2.clip n) := by
  induction fields with
  | nil => rfl
  | cons f fields ih => rw [clipFields, ih, List.map_cons]

theorem clipItems_eq (n : Nat) (items : List Json) : clipItems n items = items.map (clip n) := by
  induction items with
  | nil => rfl
  | cons j items ih => rw [clipItems, ih, List.map_cons]

/-! ## Depth and plainness of containers -/

theorem itemsDepth_le_iff {n : Nat} {items : List Json} : itemsDepth items ≤ n ↔ ∀ j ∈ items, j.depth ≤ n := by
  induction items with
  | nil => simp [itemsDepth]
  | cons j items ih => rw [itemsDepth, Nat.max_le, ih, List.forall_mem_cons]

theorem fieldsDepth_le_iff {n : Nat} {fields : List (String × Json)} :
    fieldsDepth fields ≤ n ↔ ∀ f ∈ fields, f.2.depth ≤ n := by
  induction fields with
  | nil => simp [fieldsDepth]
  | cons f fields ih => rw [fieldsDepth, Nat.max_le, ih, List.forall_mem_cons]

theorem plainItems_iff {items : List Json} : PlainItems items ↔ ∀ j ∈ items, j.Plain := by
  induction items with
  | nil => simp [PlainItems]
  | cons j items ih => rw [PlainItems, ih, List.forall_mem_cons]

theorem plainFields_iff {fields : List (String × Json)} : PlainFields fields ↔ ∀ f ∈ fields, f.2.Plain := by
  induction fields with
  | nil => simp [PlainFields]
  | cons f fields ih => rw [PlainFields, ih, List.forall_mem_cons]

mutual

/-- Nothing of a plain value is unreadable. -/
theorem isReadable_of_plain (j : Json) (h : j.Plain) : j.isReadable = true := by
  match j, h with
  | .null, _ | .bool _, _ | .nat _, _ | .str _, _ => rfl
  | .arr items, h => exact itemsReadable_of_plain items h
  | .obj fields, h => exact fieldsReadable_of_plain fields h

theorem itemsReadable_of_plain (items : List Json) (h : PlainItems items) : itemsReadable items = true := by
  match items, h with
  | [], _ => rfl
  | j :: js, h => rw [itemsReadable, isReadable_of_plain j h.1, itemsReadable_of_plain js h.2, Bool.and_self]

theorem fieldsReadable_of_plain (fields : List (String × Json)) (h : PlainFields fields) :
    fieldsReadable fields = true := by
  match fields, h with
  | [], _ => rfl
  | (_, j) :: fs, h => rw [fieldsReadable, isReadable_of_plain j h.1, fieldsReadable_of_plain fs h.2,
      Bool.and_self]

end

/-! ## Choices -/

/-- A choice is known by its name, if no two have the same. -/
theorem choice?_name {α : Type} {all : List α} {name : α → String} {a : α} (hn : (all.map name).Nodup)
    (ha : a ∈ all) : choice? all name (.str (name a)) = some a := by
  show all.find? (name · = name a) = some a
  induction all with
  | nil => cases ha
  | cons b all ih =>
    rw [List.map_cons, List.nodup_cons] at hn
    rcases List.mem_cons.1 ha with rfl | ha
    · simp
    · have hne : name b ≠ name a := fun he => hn.1 (he ▸ List.mem_map_of_mem ha)
      rw [List.find?_cons_of_neg (by simpa using hne), ih hn.2 ha]

end Json

/-! ## Types -/

theorem Visibility.ofJson?_toJson (v : Visibility) : ofJson? v.toJson = some v :=
  Json.choice?_name (by decide) (by cases v <;> decide)

theorem Mutability.ofJson?_toJson (m : Mutability) : ofJson? m.toJson = some m :=
  Json.choice?_name (by decide) (by cases m <;> decide)

namespace Ty

mutual

theorem plain_toJson (t : Ty) : t.toJson.Plain := by
  match t with
  | .bool | .address | .string => trivial
  | .uint bits | .int bits =>
    refine ⟨?_, trivial⟩
    exact Nat.lt_trans bits.toNat_lt (by decide)
  | .bytes size =>
    refine ⟨?_, trivial⟩
    exact Nat.lt_trans size.toNat_lt (by decide)
  | .dynArray item bound => exact ⟨⟨plain_toJson item, bound.toNat_lt, trivial⟩, trivial⟩
  | .mapping key value => exact ⟨⟨plain_toJson key, plain_toJson value, trivial⟩, trivial⟩
  | .storage keys value => exact ⟨⟨plain_toJsonList keys, plain_toJson value, trivial⟩, trivial⟩
  | .function params none visibility mutability =>
    exact ⟨⟨plain_toJsonList params, trivial, trivial, trivial, trivial⟩, trivial⟩
  | .function params (some t) visibility mutability =>
    exact ⟨⟨plain_toJsonList params, plain_toJson t, trivial, trivial, trivial⟩, trivial⟩

theorem plain_toJsonList (ts : List Ty) : Json.PlainItems (toJsonList ts) := by
  match ts with
  | [] => trivial
  | t :: ts => exact ⟨plain_toJson t, plain_toJsonList ts⟩

end

theorem bound?_toNat (bound : UInt64) : bound? (.nat bound.toNat) = some bound := by
  have hlt : bound.toNat < UInt64.size := bound.toNat_lt
  simp [bound?, Json.natBelow?, Json.nat?, Option.filter, hlt]

theorem ofJsonOption?_of_ne_null {p : Bool} {j : Json} (h : j ≠ .null) :
    ofJsonOption? p j = (ofJson? p j).map some := by
  rw [ofJsonOption?]
  exact h

theorem clip_toJson_ne_null (t : Ty) (n : Nat) : t.toJson.clip n ≠ .null := by
  cases t <;> simp only [toJson, Json.clip] <;> (try split_ifs) <;> simp

mutual

/-- A type is read back exactly if it is not nested too deep. -/
theorem ofJson?_clip (p : Bool) (t : Ty) (n : Nat) :
    ofJson? p (t.toJson.clip n) = if t.toJson.depth ≤ n then some t else none := by
  match t with
  | .bool | .address | .string => simp [toJson, Json.clip, ofJson?, ofName?, Json.depth]
  | .uint bits | .int bits | .bytes bits =>
    have hlt := bits.toNat_lt
    rcases n with _ | n
    · simp [toJson, Json.clip, ofJson?, Json.depth]
    · simpa [toJson, Json.clip, Json.clipFields, ofJson?, ofVariant?, ofWidth?, Json.depth,
        Json.fieldsDepth] using hlt
  | .dynArray item bound =>
    rcases n with _ | _ | n
    · simp [toJson, Json.clip, ofJson?, Json.depth]
    · simp [toJson, Json.clip, Json.clipFields, ofJson?, ofVariant?, Json.depth, Json.fieldsDepth]
    have hread : ofJson? p ((dynArray item bound).toJson.clip (n + 2)) =
        (ofJson? p (item.toJson.clip n)).bind fun i => some (.dynArray i bound) := by
      simp [toJson, Json.clip, Json.clipFields, Json.clipItems, ofJson?, ofVariant?, bound?_toNat]
    have hdepth : (dynArray item bound).toJson.depth ≤ n + 2 ↔ item.toJson.depth ≤ n := by
      simp [toJson, Json.depth, Json.fieldsDepth, Json.itemsDepth]
    rw [hread, ofJson?_clip p item n]
    simp only [hdepth]
    split_ifs <;> rfl
  | .mapping key value =>
    rcases n with _ | _ | n
    · simp [toJson, Json.clip, ofJson?, Json.depth]
    · simp [toJson, Json.clip, Json.clipFields, ofJson?, ofVariant?, Json.depth, Json.fieldsDepth]
    have hread : ofJson? p ((mapping key value).toJson.clip (n + 2)) =
        (ofJson? p (key.toJson.clip n)).bind fun k => (ofJson? p (value.toJson.clip n)).bind fun v =>
          some (.mapping k v) := by
      simp [toJson, Json.clip, Json.clipFields, Json.clipItems, ofJson?, ofVariant?]
    have hdepth : (mapping key value).toJson.depth ≤ n + 2 ↔ key.toJson.depth ≤ n ∧ value.toJson.depth ≤ n := by
      simp only [toJson, Json.depth, Json.fieldsDepth, Json.itemsDepth]
      omega
    rw [hread, ofJson?_clip p key n, ofJson?_clip p value n]
    simp only [hdepth, ite_and]
    split_ifs <;> rfl
  | .storage keys value =>
    rcases n with _ | _ | _ | n
    · simp [toJson, Json.clip, ofJson?, Json.depth]
    · simp [toJson, Json.clip, Json.clipFields, ofJson?, ofVariant?, Json.depth, Json.fieldsDepth]
    · simp [toJson, Json.clip, Json.clipFields, ofJson?, ofVariant?, slotParts?, ofJsonArray?, Json.depth,
        Json.fieldsDepth]
    have hread : ofJson? p ((storage keys value).toJson.clip (n + 3)) =
        ((ofJsonList? p (Json.clipItems n (toJsonList keys))).bind fun ks =>
          (ofJson? p (value.toJson.clip (n + 1))).bind fun v => some ⟨some ks, some v⟩).bind SlotParts.ty? := by
      simp [toJson, Json.clip, Json.clipFields, ofJson?, ofVariant?, slotParts?, ofJsonArray?]
    have hdepth : (storage keys value).toJson.depth ≤ n + 3 ↔
        Json.itemsDepth (toJsonList keys) ≤ n ∧ value.toJson.depth ≤ n + 1 := by
      simp only [toJson, Json.depth, Json.fieldsDepth]
      omega
    rw [hread, ofJsonList?_clip p keys n, ofJson?_clip p value (n + 1)]
    simp only [hdepth, ite_and]
    split_ifs <;> rfl
  | .function params returns visibility mutability =>
    rcases n with _ | _ | _ | n
    · simp [toJson, Json.clip, ofJson?, Json.depth]
    · simp [toJson, Json.clip, Json.clipFields, ofJson?, ofVariant?, Json.depth, Json.fieldsDepth]
    · simp [toJson, Json.clip, Json.clipFields, ofJson?, ofVariant?, functionParts?, ofJsonArray?, Json.depth,
        Json.fieldsDepth]
    have hread : ofJson? p ((function params returns visibility mutability).toJson.clip (n + 3)) =
        ((ofJsonList? p (Json.clipItems n (toJsonList params))).bind fun ps =>
          (ofJsonOption? p ((toJsonOption returns).clip (n + 1))).bind fun r =>
            some ⟨some ps, some r, some visibility, some mutability⟩).bind FunctionParts.ty? := by
      have hv := Visibility.ofJson?_toJson visibility
      have hm := Mutability.ofJson?_toJson mutability
      rw [Visibility.toJson] at hv
      rw [Mutability.toJson] at hm
      simp [toJson, Json.clip, Json.clipFields, ofJson?, ofVariant?, functionParts?, ofJsonArray?,
        Visibility.toJson, Mutability.toJson, hv, hm]
    have hdepth : (function params returns visibility mutability).toJson.depth ≤ n + 3 ↔
        Json.itemsDepth (toJsonList params) ≤ n ∧ (toJsonOption returns).depth ≤ n + 1 := by
      simp only [toJson, Json.depth, Json.fieldsDepth, Visibility.toJson, Mutability.toJson]
      omega
    rw [hread, ofJsonList?_clip p params n, ofJsonOption?_clip p returns (n + 1)]
    simp only [hdepth, ite_and]
    split_ifs <;> rfl

theorem ofJsonOption?_clip (p : Bool) (t : Option Ty) (n : Nat) :
    ofJsonOption? p ((toJsonOption t).clip n) = if (toJsonOption t).depth ≤ n then some t else none := by
  match t with
  | none => simp [toJsonOption, Json.clip, ofJsonOption?, Json.depth]
  | some t =>
    rw [toJsonOption, ofJsonOption?_of_ne_null (clip_toJson_ne_null t n), ofJson?_clip p t n]
    split_ifs <;> rfl

theorem ofJsonList?_clip (p : Bool) (ts : List Ty) (n : Nat) :
    ofJsonList? p (Json.clipItems n (toJsonList ts)) =
      if Json.itemsDepth (toJsonList ts) ≤ n then some ts else none := by
  match ts with
  | [] => simp [toJsonList, Json.clipItems, ofJsonList?, Json.itemsDepth]
  | t :: ts =>
    rw [toJsonList, Json.clipItems, ofJsonList?, ofJson?_clip p t n, ofJsonList?_clip p ts n, Json.itemsDepth]
    simp only [Nat.max_le, ite_and]
    split_ifs <;> rfl

end

theorem ofJson?_toJson (p : Bool) (t : Ty) : ofJson? p t.toJson = some t := by
  have h := ofJson?_clip p t t.toJson.depth
  rwa [Json.clip_of_depth_le _ (Nat.le_refl _), if_pos (Nat.le_refl _)] at h

end Ty

/-! ## Whole numbers -/

namespace Decimal

theorem nat?_toDigits (n : Nat) : nat? (Nat.toDigits 10 n) = some n := by
  have hdigits := List.all_eq_true.1 (Json.all_isDigit_toDigits n)
  have hfilter : (Nat.toDigits 10 n).filter Char.isDigit = Nat.toDigits 10 n := List.filter_eq_self.2 hdigits
  have hvalue := Json.digitsValue_toDigits n
  obtain ⟨d, ds, hd⟩ := List.exists_cons_of_ne_nil (Nat.toDigits_ne_nil (n := n) (b := 10))
  rw [hd] at hdigits hfilter hvalue ⊢
  rw [List.forall_mem_cons] at hdigits
  rw [nat?, hfilter, hvalue, if_pos]
  simpa [hdigits.1] using fun c hc => .inl (hdigits.2 c hc)

theorem int?_of_unsigned {text : String} (hm : ∀ cs, text.toList ≠ '-' :: cs)
    (hp : ∀ cs, text.toList ≠ '+' :: cs) : int? text = (nat? text.toList).map Int.ofNat := by
  unfold int?
  split
  · next h => exact absurd h (hm _)
  · next h => exact absurd h (hp _)
  · rfl

theorem int?_ofInt (i : Int) : int? (ofInt i) = some i := by
  have hlist (n : Nat) : (toString n).toList = Nat.toDigits 10 n := by
    rw [Nat.toString_eq_ofList_toDigits, String.toList_ofList]
  cases i with
  | ofNat n =>
    have hdigit : ∀ c cs, c.isDigit = false → (toString n).toList ≠ c :: cs := by
      intro c cs hc he
      have := List.all_eq_true.1 (Json.all_isDigit_toDigits n) c (hlist n ▸ he ▸ List.mem_cons_self)
      rw [hc] at this
      cases this
    rw [ofInt, int?_of_unsigned (fun cs => hdigit '-' cs rfl) (fun cs => hdigit '+' cs rfl), hlist, nat?_toDigits]
    rfl
  | negSucc n =>
    have hneg : (ofInt (.negSucc n)).toList = '-' :: Nat.toDigits 10 (n + 1) := by
      rw [ofInt, String.toList_append, hlist]
      rfl
    rw [int?, hneg]
    simp only [nat?_toDigits]
    rfl

end Decimal

/-! ## Nodes -/

namespace NodeId

theorem ofJson?_toJson (i : NodeId) : ofJson? i.toJson = some i := by
  have hlt : i.toNat < UInt32.size := i.val.toNat_lt
  simp [ofJson?, toJson, Json.natBelow?, Json.nat?, Option.filter, hlt]
  simp [toNat]

theorem plain_toJson (i : NodeId) : i.toJson.Plain := Nat.lt_trans i.val.toNat_lt (by decide)

theorem listOf?_map_toJson (l : List NodeId) : Json.listOf? ofJson? (.arr (l.map toJson)) = some l := by
  have h : (l.map toJson).mapM ofJson? = some l := by
    induction l with
    | nil => rfl
    | cons i l ih => simp [ih, ofJson?_toJson]
  rw [Json.listOf?, Json.arr?, Option.bind_some, h]

theorem optional?_ofOption (i : Option NodeId) :
    Json.optional? ofJson? (some (Json.ofOption toJson i)) = some i := by
  cases i with
  | none => rfl
  | some i =>
    have h := ofJson?_toJson i
    rw [toJson] at h
    simp [Json.ofOption, Json.optional?, toJson, h]

end NodeId

theorem Tag.ofLabel?_label (t : Tag) : ofLabel? t.label = some t := by cases t <;> decide

namespace Kind

/-- A kind is read back from its fields. -/
theorem ofFields?_toFields (k : Kind) : ofFields? k.tag k.toFields = some k := by
  have hchoice {α : Type} (all : List α) (name : α → String) (a : α) (hn : (all.map name).Nodup) (ha : a ∈ all) :
      Json.choiceOrEmpty? all name (.str (name a)) = some a := Json.choice?_name hn ha
  have hbin (op : BinOp) := hchoice BinOp.all BinOp.name op (by decide) (by cases op <;> decide)
  have hbool (op : BoolOp) := hchoice BoolOp.all BoolOp.name op (by decide) (by cases op <;> decide)
  have hcompare (op : CompareOp) := hchoice CompareOp.all CompareOp.name op (by decide) (by cases op <;> decide)
  have hunary (op : UnaryOp) := hchoice UnaryOp.all UnaryOp.name op (by decide) (by cases op <;> decide)
  have hvis (v : Visibility) := hchoice Visibility.all Visibility.name v (by decide) (by cases v <;> decide)
  have hmut (m : Mutability) := hchoice Mutability.all Mutability.name m (by decide) (by cases m <;> decide)
  cases k <;>
    simp [toFields, slots, tag, ofFields?, Json.required, Json.field, Slot.toJson, Json.str?, Json.bool?,
      Json.orDefault?, NodeId.ofJson?_toJson, NodeId.listOf?_map_toJson, NodeId.optional?_ofOption,
      Decimal.int?_ofInt, Visibility.toJson, Mutability.toJson, hbin, hbool, hcompare, hunary, hvis, hmut]

theorem fst_toFields (k : Kind) : ∀ f ∈ k.toFields, f.1 ∉ Node.ownFields := by
  have hnames : ∀ t : Tag, ∀ x ∈ "ast_type" :: t.fieldNames, x ∉ Node.ownFields := by
    intro t
    cases t <;> decide
  have hfst : k.toFields.map Prod.fst = "ast_type" :: k.tag.fieldNames := by
    rw [toFields, List.map_cons, List.map_map, ← map_fst_slots]
    rfl
  exact fun f hf => hnames k.tag f.1 (hfst ▸ List.mem_map_of_mem hf)

theorem plain_slot (s : Slot) (h : ∀ j, s = .data j → j.Plain ∧ j.depth ≤ 1) :
    s.toJson.Plain ∧ s.toJson.depth ≤ 1 := by
  cases s with
  | child i => exact ⟨i.plain_toJson, Nat.zero_le 1⟩
  | childOption i =>
    cases i with
    | none => exact ⟨trivial, Nat.zero_le 1⟩
    | some i => exact ⟨i.plain_toJson, Nat.zero_le 1⟩
  | childList l =>
    constructor
    · refine Json.plainItems_iff.2 fun j hj => ?_
      obtain ⟨i, -, rfl⟩ := List.mem_map.1 hj
      exact i.plain_toJson
    · have hdepth : Json.itemsDepth (l.map NodeId.toJson) ≤ 0 := Json.itemsDepth_le_iff.2 fun j hj => by
        obtain ⟨i, -, rfl⟩ := List.mem_map.1 hj
        exact Nat.le_refl 0
      simpa [Slot.toJson, Json.depth] using hdepth
  | data j => exact h j rfl

/-- What stands in a field of a kind is at most one level deep. -/
theorem snd_toFields (k : Kind) : ∀ f ∈ k.toFields, f.2.Plain ∧ f.2.depth ≤ 1 := by
  have hdata : ∀ s ∈ k.slots, ∀ j, s.2 = .data j → j.Plain ∧ j.depth ≤ 1 := by
    cases k <;> simp [slots, Json.Plain, Json.depth, Visibility.toJson, Mutability.toJson]
  intro f hf
  rcases List.mem_cons.1 hf with rfl | hf
  · exact ⟨trivial, Nat.zero_le 1⟩
  · obtain ⟨s, hs, rfl⟩ := List.mem_map.1 hf
    exact plain_slot s.2 (hdata s hs)

end Kind

namespace Node

/-- The fields of a node that no kind has, with the type cut off below `m` levels. -/
def ownJson (n : Node) (m : Nat) : List (String × Json) :=
  [("node_id", n.id.toJson)] ++ n.parent.toList.map (("parent", ·.toJson)) ++
    n.ty.toList.map fun t => ("type", t.toJson.clip m)

theorem clip_toJson (n : Node) {m : Nat} (hm : 1 ≤ m) :
    n.toJson.clip (m + 1) = .obj (n.ownJson m ++ n.kind.toFields) := by
  have hfields : n.kind.toFields.map (fun f => (f.1, f.2.clip m)) = n.kind.toFields := by
    refine (List.map_congr_left fun f hf => ?_).trans (List.map_id _)
    rw [Json.clip_of_depth_le _ (Nat.le_trans (n.kind.snd_toFields f hf).2 hm)]
    rfl
  rw [toJson, Json.clip, if_pos (Nat.succ_pos m), Nat.add_sub_cancel, Json.clipFields_eq, List.map_append, hfields,
    ownJson]
  cases n.parent <;> cases n.ty <;> rfl

theorem field_ownJson (n : Node) (m : Nat) (k : Kind) :
    Json.field (n.ownJson m ++ k.toFields) "node_id" = some (some n.id.toJson) ∧
    Json.field (n.ownJson m ++ k.toFields) "parent" = some (n.parent.map NodeId.toJson) ∧
    Json.field (n.ownJson m ++ k.toFields) "type" = some (n.ty.map fun t => t.toJson.clip m) := by
  have hnames : ∀ x ∈ ownFields, x ∉ k.toFields.map Prod.fst := by
    intro x hx hmem
    obtain ⟨f, hf, rfl⟩ := List.mem_map.1 hmem
    exact k.fst_toFields f hf hx
  rw [Json.field_append_left (hnames _ (by decide)), Json.field_append_left (hnames _ (by decide)),
    Json.field_append_left (hnames _ (by decide)), ownJson]
  cases n.parent <;> cases n.ty <;> simp [Json.field]

theorem filter_ownJson (n : Node) (m : Nat) (k : Kind) :
    (n.ownJson m ++ k.toFields).filter (·.1 ∉ ownFields) = k.toFields := by
  have hown : (n.ownJson m).filter (·.1 ∉ ownFields) = [] := by
    rw [ownJson]
    cases n.parent <;> cases n.ty <;> simp [ownFields]
  have hkind : k.toFields.filter (·.1 ∉ ownFields) = k.toFields :=
    List.filter_eq_self.2 fun f hf => decide_eq_true (k.fst_toFields f hf)
  rw [List.filter_append, hown, hkind, List.nil_append]

/-- A node is read back exactly if its type is not nested too deep. -/
theorem ofJson?_clip (p : Bool) (n : Node) {m : Nat} (hm : 1 ≤ m) :
    ofJson? p (n.toJson.clip (m + 1)) = if ∀ t ∈ n.ty, t.toJson.depth ≤ m then some n else none := by
  obtain ⟨hid, hparent, hty⟩ := n.field_ownJson m n.kind
  have hreadable : Json.fieldsReadable n.kind.toFields = true :=
    Json.fieldsReadable_of_plain _ (Json.plainFields_iff.2 fun f hf => (n.kind.snd_toFields f hf).1)
  have hparent' : Json.optional? NodeId.ofJson? (n.parent.map NodeId.toJson) = some n.parent := by
    cases n.parent with
    | none => rfl
    | some i => exact NodeId.optional?_ofOption (some i)
  have hty' : Json.optional? (Ty.ofJson? p) (n.ty.map fun t => t.toJson.clip m) =
      if ∀ t ∈ n.ty, t.toJson.depth ≤ m then some n.ty else none := by
    cases n.ty with
    | none => simp [Json.optional?]
    | some t =>
      rw [Option.map_some, Json.optional?, Ty.ofJson?_clip]
      · simp
      · exact t.clip_toJson_ne_null m
  have htag : (Json.field n.kind.toFields "ast_type").join.bind Tag.ofJson? = some n.kind.tag := by
    have hother : "ast_type" ∉ (n.kind.slots.map fun s => (s.1, s.2.toJson)).map Prod.fst := by
      have hnames : ∀ t : Tag, "ast_type" ∉ t.fieldNames := by
        intro t
        cases t <;> decide
      rw [List.map_map, show (Prod.fst ∘ fun s : String × Slot => (s.1, s.2.toJson)) = Prod.fst from rfl,
        Kind.map_fst_slots]
      exact hnames n.kind.tag
    have hfield : Json.field n.kind.toFields "ast_type" = some (some (.str n.kind.tag.label)) := by
      show Json.field ([("ast_type", .str n.kind.tag.label)] ++ _) "ast_type" = _
      rw [Json.field_append_left hother]
      simp [Json.field]
    rw [hfield]
    exact n.kind.tag.ofLabel?_label
  rw [clip_toJson n hm, ofJson?]
  simp only [Json.required, hid, hparent, hty, filter_ownJson, hreadable, Option.join_some, Option.bind_some,
    NodeId.ofJson?_toJson, hparent', hty', htag, Kind.ofFields?_toFields, Option.bind_eq_bind, Bool.not_true,
    Bool.false_eq_true, if_false]
  split_ifs <;> rfl

theorem plain_toJson (n : Node) : n.toJson.Plain := by
  refine Json.plainFields_iff.2 fun f hf => ?_
  simp only [List.mem_append, List.mem_singleton, List.mem_map] at hf
  rcases hf with ((rfl | ⟨i, -, rfl⟩) | ⟨t, -, rfl⟩) | hf
  · exact n.id.plain_toJson
  · exact i.plain_toJson
  · exact t.plain_toJson
  · exact (n.kind.snd_toFields f hf).1

end Node

/-! ## Documents -/

namespace Document

theorem mapM_ofJson?_clip (p : Bool) {m : Nat} (hm : 1 ≤ m) (nodes : List Node) :
    (nodes.map fun n => n.toJson.clip (m + 1)).mapM (Node.ofJson? p) =
      if ∀ n ∈ nodes, ∀ t ∈ n.ty, t.toJson.depth ≤ m then some nodes else none := by
  induction nodes with
  | nil => simp
  | cons n nodes ih =>
    rw [List.map_cons, List.mapM_cons, Node.ofJson?_clip p n hm, ih]
    simp only [List.forall_mem_cons, ite_and]
    split_ifs <;> rfl

theorem plain_toJson (d : Document) : d.toJson.Plain := by
  refine ⟨d.root.plain_toJson, d.nextId.plain_toJson, Json.plainItems_iff.2 fun j hj => ?_, trivial⟩
  obtain ⟨n, -, rfl⟩ := List.mem_map.1 hj
  exact n.plain_toJson

theorem ofJson?_clip (d : Document) {m : Nat} (hm : 1 ≤ m) : ofJson? (d.toJson.clip (m + 3)) =
    if ∀ n ∈ d.nodes, ∀ t ∈ n.ty, t.toJson.depth ≤ m then some d else none := by
  have hclip : d.toJson.clip (m + 3) = .obj [("root", d.root.toJson), ("next_id", d.nextId.toJson),
      ("nodes", .arr (d.nodes.map fun n => n.toJson.clip (m + 1)))] := by
    simp [toJson, Json.clip, Json.clipFields, Json.clipItems_eq, NodeId.toJson]
  have hrecord : Json.record ["root", "next_id", "nodes"] (d.toJson.clip (m + 3)) =
      some [some d.root.toJson, some d.nextId.toJson,
        some (.arr (d.nodes.map fun n => n.toJson.clip (m + 1)))] := by
    rw [hclip]
    simp [Json.record, Json.field]
  rw [ofJson?, hrecord]
  simp only [Option.bind_eq_bind, Option.bind_some, NodeId.ofJson?_toJson, Json.orDefault?, Json.listOf?,
    Json.arr?, mapM_ofJson?_clip true hm]
  split_ifs <;> rfl

/-- A written document is read back exactly if none of its types is nested too deep: the document, its list of
nodes and a node stand around a type. -/
theorem parse?_text (d : Document) :
    parse? d.text = if ∀ n ∈ d.nodes, ∀ t ∈ n.ty, t.toJson.depth ≤ 124 then some d else none := by
  rw [parse?, text, Json.parse?_pretty d.plain_toJson, Option.bind_some]
  exact d.ofJson?_clip (m := 124) (by decide)

end Document

end ContractTree
