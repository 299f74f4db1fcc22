import WorkLedger.Proofs.Fallible
import WorkLedger.Proofs.Json.Documents

/-!
# Records in JSON

An object is read member by member, and each member goes to the field with its name.
So if the members come in the order of the fields, every field is read from its own
member, or takes its default if the member is left out (`Record.Reads`). What every field
guarantees of its value holds of a record however it was written (`Record.Ensures`).
-/

namespace WorkLedger

namespace Json

/-- The members that are written. -/
def shown (members : List (String × Option Json)) : List (String × Json) :=
  members.filterMap fun m => m.2.map fun j => (m.1, j)

theorem mem_shown {members : List (String × Option Json)} {m : String × Json}
    (h : m ∈ shown members) : (m.1, some m.2) ∈ members := by
  obtain ⟨⟨name, o⟩, hmem, hm⟩ := List.mem_filterMap.mp h
  obtain ⟨j, rfl, rfl⟩ := Option.map_eq_some_iff.mp hm
  exact hmem

theorem shown_append_singleton (members : List (String × Option Json)) (name : String)
    (o : Option Json) :
    shown (members ++ [(name, o)]) = shown members ++ (o.map fun j => (name, j)).toList := by
  rw [shown, List.filterMap_append]
  cases o <;> rfl

end Json

namespace Decoder

variable {α : Type}

/-- A decoder reads a value from a proper document. -/
structure Reads (d : Decoder α) (j : Json) (a : α) : Prop where
  proper : j.IsProper
  eq_ok : d j = .ok a

variable {d : Decoder α}

/-- What a decoder reads from a document it reads from its text. -/
theorem Reads.read_compact {j : Json} {a : α} (h : d.Reads j a) : d.read j.compact = .ok a :=
  (Json.read_compact d h.proper).trans h.eq_ok

theorem Reads.read_pretty {j : Json} {a : α} (h : d.Reads j a) : d.read j.pretty = .ok a :=
  (Json.read_pretty d h.proper).trans h.eq_ok

theorem nullable_of_ne {j : Json} (hne : j ≠ .null) : nullable d j = (d j).map some := by
  cases j with
  | null => exact absurd rfl hne
  | bool | number | string | array | object | broken => rfl

theorem Reads.nullable {j : Json} {a : α} (h : d.Reads j a) (hne : j ≠ .null) :
    (nullable d).Reads j (some a) := by
  refine ⟨h.proper, ?_⟩
  rw [nullable_of_ne hne, h.eq_ok]
  rfl

theorem reads_list {toJson : α → Json} {as : List α} (h : ∀ a ∈ as, d.Reads (toJson a) a) :
    (list d).Reads (.array (as.map toJson)) as := by
  constructor
  · exact Json.areProper_iff.mpr (List.forall_mem_map.mpr fun a ha => (h a ha).proper)
  · change (as.map toJson).mapM d = .ok as
    rw [List.mapM_map]
    exact (mapM_eq_ok (g := id) fun a ha => (h a ha).eq_ok).trans (congrArg _ as.map_id)

theorem reads_nil : (list d).Reads (.array []) [] := ⟨trivial, rfl⟩

theorem Reads.singleton {j : Json} {a : α} (h : d.Reads j a) : (list d).Reads (.array [j]) [a] := by
  refine ⟨⟨h.proper, trivial⟩, ?_⟩
  change [j].mapM d = .ok [a]
  rw [List.mapM_cons, h.eq_ok]
  rfl

section

variable {P : α → Prop} (hd : ∀ j a, d j = .ok a → P a)

include hd

theorem of_nullable {j : Json} {o : Option α} (h : nullable d j = .ok o) : ∀ a ∈ o, P a := by
  rintro a rfl
  by_cases hne : j = .null
  · rw [hne] at h
    cases h
  · rw [nullable_of_ne hne] at h
    obtain ⟨b, hb, heq⟩ := map_eq_ok_iff.mp h
    cases heq
    exact hd j _ hb

theorem of_list {j : Json} {as : List α} (h : list d j = .ok as) : ∀ a ∈ as, P a := by
  cases j with
  | array items =>
      intro a ha
      obtain ⟨item, _, hitem⟩ := exists_of_mem_mapM h ha
      exact hd item a hitem
  | null | bool | number | string | object | broken => cases h

end

end Decoder

namespace Record

variable {α β : Type}

/-- A record is read from members with the names of its fields. -/
structure Reads (r : Record α) (members : List (String × Option Json)) (a : α) : Prop where
  names : ∀ m ∈ members, m.1 ∈ r.names
  proper : ∀ m ∈ members, ∀ j ∈ m.2, j.IsProper
  finish : ∃ s, (Json.shown members).foldlM r.member r.start = .ok s ∧ r.finish s = .ok a

theorem reads_ofConstructor (a : α) : (ofConstructor a).Reads [] a :=
  ⟨fun _ h => absurd h List.not_mem_nil, fun _ h => absurd h List.not_mem_nil, (), rfl, rfl⟩

theorem Reads.decoder {r : Record α} {members : List (String × Option Json)} {a : α}
    (h : r.Reads members a) : r.decoder.Reads (.present members) a := by
  obtain ⟨s, hs, ha⟩ := h.finish
  constructor
  · exact Json.areMembersProper_iff.mpr fun m hm => h.proper _ (Json.mem_shown hm) _ rfl
  · change ((Json.shown members).foldlM r.member r.start).bind r.finish = _
    rw [hs]
    exact ha

/-- What was met of the fields of a record and of one more field. -/
def met (r : Record (β → α)) (name : String) (d : Decoder β) (default : Option β)
    (s : r.State) (o : Option β) : (r.field name d default).State := (s, o)

section

variable {r : Record (β → α)} {name : String} (d : Decoder β) (default : Option β)

theorem put_met (s : r.State) (j : Json) :
    (r.field name d default).put name j (r.met name d default s none) =
      (d j).map fun b => r.met name d default s (some b) := if_pos rfl

theorem put_met_of_ne {n : String} (hne : n ≠ name) (j : Json) (s : r.State) (o : Option β) :
    (r.field name d default).put n j (r.met name d default s o) =
      (r.put n j s).map fun t => r.met name d default t o := if_neg hne

/-- What a field takes was read by its decoder, and the rest by the other fields. -/
theorem exists_of_put_met {n : String} {j : Json} {s : r.State} {o : Option β}
    {t : (r.field name d default).State}
    (h : (r.field name d default).put n j (r.met name d default s o) = .ok t) :
    (∃ b, d j = .ok b ∧ r.met name d default s (some b) = t) ∨
      ∃ u, r.put n j s = .ok u ∧ r.met name d default u o = t := by
  by_cases hne : n = name
  · cases o with
    | some b =>
        rw [hne, show (r.field name d default).put name j (r.met name d default s (some b)) =
          .error .mismatched from if_pos rfl] at h
        cases h
    | none =>
        rw [hne, put_met] at h
        exact Or.inl (map_eq_ok_iff.mp h)
  · rw [put_met_of_ne d default hne] at h
    exact Or.inr (map_eq_ok_iff.mp h)

theorem finish_met {s : r.State} {make : β → α} (hmake : r.finish s = .ok make)
    {o : Option β} {b : β} (hb : o.or default = some b) :
    (r.field name d default).finish (r.met name d default s o) = .ok (make b) := by
  dsimp only [field, met]
  rw [hmake]
  dsimp only
  rw [hb]

theorem exists_of_finish_met {s : r.State} {o : Option β} {a : α}
    (h : (r.field name d default).finish (r.met name d default s o) = .ok a) :
    ∃ make b, r.finish s = .ok make ∧ o.or default = some b ∧ make b = a := by
  dsimp only [field, met] at h
  cases hmake : r.finish s with
  | error f =>
      rw [hmake] at h
      cases h
  | ok make =>
      rw [hmake] at h
      dsimp only at h
      cases hor : o.or default with
      | none =>
          rw [hor] at h
          cases h
      | some b =>
          rw [hor] at h
          cases h
          exact ⟨make, b, rfl, rfl, rfl⟩

section

variable {members : List (String × Option Json)} {make : β → α} (h : r.Reads members make)
  (o : Option Json)

include h

theorem Reads.names_append_singleton :
    ∀ m ∈ members ++ [(name, o)], m.1 ∈ (r.field name d default).names := by
  intro m hm
  rcases List.mem_append.mp hm with hold | hnew
  · exact List.mem_append_left _ (h.names m hold)
  · rw [List.mem_singleton.mp hnew]
    exact List.mem_append_right _ (List.mem_singleton_self name)

theorem Reads.proper_append_singleton (ho : ∀ j ∈ o, j.IsProper) :
    ∀ m ∈ members ++ [(name, o)], ∀ j ∈ m.2, j.IsProper := by
  intro m hm
  rcases List.mem_append.mp hm with hold | hnew
  · exact h.proper m hold
  · rw [List.mem_singleton.mp hnew]
    exact ho

end

variable (hname : name ∉ r.names)

include hname

/-- Members of the other fields leave a field as it is. -/
theorem member_met {m : String × Json} (hm : m.1 ∈ r.names) (s : r.State) (o : Option β) :
    (r.field name d default).member (r.met name d default s o) m =
      (r.member s m).map fun t => r.met name d default t o := by
  have hne : m.1 ≠ name := fun heq => hname (heq ▸ hm)
  have hmem : m.1 ∈ (r.field name d default).names := List.mem_append_left _ hm
  rw [member, member, if_pos hm, if_pos hmem, put_met_of_ne d default hne]

theorem foldlM_member_met {members : List (String × Json)}
    (hmembers : ∀ m ∈ members, m.1 ∈ r.names) (s : r.State) (o : Option β) :
    members.foldlM (r.field name d default).member (r.met name d default s o) =
      (members.foldlM r.member s).map fun t => r.met name d default t o := by
  induction members generalizing s with
  | nil => rfl
  | cons m rest ih =>
      rw [List.forall_mem_cons] at hmembers
      rw [List.foldlM_cons, List.foldlM_cons, member_met d default hname hmembers.1]
      cases hm : r.member s m with
      | error f => rfl
      | ok t => exact ih hmembers.2 t

variable {members : List (String × Option Json)} {make : β → α} (h : r.Reads members make)

include h

theorem foldlM_shown_met :
    ∃ s, r.finish s = .ok make ∧ (Json.shown members).foldlM (r.field name d default).member
      (r.met name d default r.start none) = .ok (r.met name d default s none) := by
  obtain ⟨s, hs, hmake⟩ := h.finish
  have hmembers : ∀ m ∈ Json.shown members, m.1 ∈ r.names := fun m hm =>
    h.names _ (Json.mem_shown hm)
  refine ⟨s, hmake, (foldlM_member_met d default hname hmembers r.start none).trans ?_⟩
  rw [hs]
  rfl

/-- A field whose member comes after those of the others. -/
theorem Reads.field {j : Json} {b : β} (hb : d.Reads j b) :
    (r.field name d default).Reads (members ++ [(name, some j)]) (make b) := by
  obtain ⟨s, hmake, hold⟩ := foldlM_shown_met d default hname h
  have hnames : ∀ m ∈ members ++ [(name, some j)], m.1 ∈ (r.field name d default).names :=
    h.names_append_singleton d default (some j)
  have hproper : ∀ k ∈ some j, k.IsProper := fun k hk => Option.some.inj hk ▸ hb.proper
  refine ⟨hnames, h.proper_append_singleton _ hproper, r.met name d default s (some b), ?_,
    finish_met d default hmake rfl⟩
  have hmem := hnames (name, some j) (List.mem_append_right _ (List.mem_singleton_self _))
  rw [Json.shown_append_singleton]
  refine (foldlM_append_singleton hold (name, j)).trans ?_
  rw [member, if_pos hmem, put_met, hb.eq_ok]
  rfl

/-- A field whose member is left out takes its default. -/
theorem Reads.skip (b : β) :
    (r.field name d (some b)).Reads (members ++ [(name, none)]) (make b) := by
  obtain ⟨s, hmake, hold⟩ := foldlM_shown_met d (some b) hname h
  refine ⟨h.names_append_singleton d (some b) none, h.proper_append_singleton _ nofun,
    r.met name d (some b) s none, ?_, finish_met d (some b) hmake rfl⟩
  rw [Json.shown_append_singleton, Option.map_none, Option.toList_none, List.append_nil]
  exact hold

end

theorem Reads.required {r : Record (β → α)} {members : List (String × Option Json)} {make : β → α}
    (h : r.Reads members make) (name : String) (hname : name ∉ r.names) {d : Decoder β} {j : Json}
    {b : β} (hb : d.Reads j b) :
    (r.required name d).Reads (members ++ [(name, some j)]) (make b) :=
  h.field d none hname hb

/-- A field that is left out if it holds nothing. -/
theorem Reads.optional {r : Record (Option β → α)} {members : List (String × Option Json)}
    {make : Option β → α} (h : r.Reads members make) (name : String) (hname : name ∉ r.names)
    {d : Decoder β} (o : Option β) (toJson : β → Json)
    (ho : ∀ b ∈ o, toJson b ≠ .null ∧ d.Reads (toJson b) b) :
    (r.optional name d).Reads (members ++ [(name, o.map toJson)]) (make o) := by
  cases o with
  | none => exact h.skip _ hname none
  | some b =>
      obtain ⟨hne, hb⟩ := ho b rfl
      exact h.field _ _ hname (hb.nullable hne)

/-- A property of what was met of the fields of a record, through which the record gets
one. -/
structure Keeps (r : Record α) (I : r.State → Prop) (Q : α → Prop) : Prop where
  start : I r.start
  put : ∀ name j s t, I s → r.put name j s = .ok t → I t
  finish : ∀ s a, I s → r.finish s = .ok a → Q a

/-- Every record that is read has a property. -/
def Ensures (r : Record α) (Q : α → Prop) : Prop := ∃ I, r.Keeps I Q

theorem ensures_ofConstructor {a : α} {Q : α → Prop} (ha : Q a) : (ofConstructor a).Ensures Q := by
  refine ⟨fun _ => True, trivial, fun _ _ _ _ _ _ => trivial, fun _ b _ hb => ?_⟩
  cases hb
  exact ha

section

variable {r : Record (β → α)} {P : β → Prop} {Q : α → Prop} {name : String} {d : Decoder β}
  {absent : Option β} (h : r.Ensures fun make => ∀ b, P b → Q (make b))
  (hd : ∀ j b, d j = .ok b → P b) (habsent : ∀ b ∈ absent, P b)

include h hd habsent

/-- What a field guarantees of its value can be used for the record. -/
theorem Ensures.field : (r.field name d absent).Ensures Q := by
  obtain ⟨I, hI⟩ := h
  refine ⟨fun s => I s.1 ∧ ∀ b ∈ s.2, P b, ⟨hI.start, nofun⟩, ?_, ?_⟩
  · rintro n j ⟨s, o⟩ t ⟨hs, ho⟩ hput
    rcases exists_of_put_met d absent hput with ⟨b, hb, rfl⟩ | ⟨u, hu, rfl⟩
    · refine ⟨hs, fun c hc => ?_⟩
      obtain rfl : b = c := Option.some.inj hc
      exact hd j b hb
    · exact ⟨hI.put n j s u hs hu, ho⟩
  · rintro ⟨s, o⟩ a ⟨hs, ho⟩ hfinish
    obtain ⟨make, b, hmake, hb, rfl⟩ := exists_of_finish_met d absent hfinish
    apply hI.finish s make hs hmake
    rcases Option.or_eq_some_iff.mp hb with hheld | ⟨-, habs⟩
    · exact ho b hheld
    · exact habsent b habs

end

/-- A field that guarantees nothing. -/
theorem Ensures.any {r : Record (β → α)} {Q : α → Prop} {name : String} {d : Decoder β}
    {absent : Option β} (h : r.Ensures fun make => ∀ b, Q (make b)) :
    (r.field name d absent).Ensures Q := by
  obtain ⟨I, hI⟩ := h
  exact .field (P := fun _ => True)
    ⟨I, hI.start, hI.put, fun s make hs hmake b _ => hI.finish s make hs hmake b⟩
    (fun _ _ _ => trivial) (fun _ _ => trivial)

section

variable {r : Record α} {I : r.State → Prop} {Q : α → Prop} (h : r.Keeps I Q)

include h

theorem Keeps.member {s t : r.State} {m : String × Json} (hs : I s) (hm : r.member s m = .ok t) :
    I t := by
  rw [Record.member] at hm
  split at hm
  · exact h.put m.1 m.2 s t hs hm
  · split at hm
    · cases hm
    · split at hm
      · cases hm
        exact hs
      · cases hm

theorem Keeps.items {names : List String} {js : List Json} {s t : r.State} (hs : I s)
    (hitems : r.items names js s = .ok t) : I t := by
  induction js generalizing names s with
  | nil =>
      rw [Record.items] at hitems
      cases hitems
      exact hs
  | cons j rest ih =>
      cases names with
      | nil => cases hitems
      | cons name names =>
          rw [Record.items] at hitems
          split at hitems
          next u hu => exact ih (h.put name j s u hs hu) hitems
          next => cases hitems

end

/-- What the fields of a record guarantee holds however it is written. -/
theorem Ensures.decoder {r : Record α} {Q : α → Prop} (h : r.Ensures Q) {j : Json} {a : α}
    (ha : r.decoder j = .ok a) : Q a := by
  obtain ⟨I, hI⟩ := h
  cases j with
  | object members =>
      obtain ⟨s, hs, hfinish⟩ := bind_eq_ok_iff.mp ha
      exact hI.finish s a (foldlM_preserves (fun _ _ _ => hI.member) hI.start hs) hfinish
  | array js =>
      obtain ⟨s, hs, hfinish⟩ := bind_eq_ok_iff.mp ha
      exact hI.finish s a (hI.items hI.start hs) hfinish
  | null | bool | number | string | broken => cases ha

end Record

end WorkLedger
