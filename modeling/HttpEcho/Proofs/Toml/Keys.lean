import HttpEcho.Proofs.Steps
import HttpEcho.Toml.Document
import Mathlib.Data.List.Nodup

/-! The keys of a document's tables.

However a document puts its tables together, by headers, by dotted keys or in braces, no table at any
depth has two entries of one key (`ofText?_distinct`). Two facts carry this: what a reader gives is
distinct in itself (`value_gives`), and whatever is done to a table adds an entry only under a key
that it does not have, and otherwise changes an entry in its place (`Entries.Distinct.insert`,
`Entries.Distinct.replace`). -/
namespace HttpEcho.Toml

/-! ### Distinct keys -/

/-- A value in which no table has two entries of one key, at any depth. -/
inductive Value.Distinct : Value → Prop
  | string {text} : Distinct (.string text)
  | integer {n} : Distinct (.integer n)
  | floating {x} : Distinct (.floating x)
  | boolean {b} : Distinct (.boolean b)
  | moment : Distinct .moment
  | array {items} : (∀ v ∈ items, Distinct v) → Distinct (.array items)
  | table {entries} : (entries.map Prod.fst).Nodup → (∀ e ∈ entries, Distinct e.2) →
      Distinct (.table entries)

theorem Value.distinct_array_iff {items : List Value} :
    (Value.array items).Distinct ↔ ∀ v ∈ items, v.Distinct :=
  ⟨fun h => by cases h; assumption, .array⟩

theorem Value.distinct_table_iff {entries : List (String × Value)} :
    (Value.table entries).Distinct ↔
      (entries.map Prod.fst).Nodup ∧ ∀ e ∈ entries, e.2.Distinct :=
  ⟨fun h => by cases h; constructor <;> assumption, fun h => .table h.1 h.2⟩

namespace Entries
variable {entries before after : Entries} {key name : String} {node : Node}

/-- Entries of a table that are distinct when it is finished. -/
def Distinct (entries : Entries) : Prop :=
  (Value.table (Node.entriesToValues entries)).Distinct

theorem entriesToValues_eq_map (entries : Entries) :
    Node.entriesToValues entries = entries.map fun e => (e.1, e.2.toValue) := by
  induction entries with
  | nil => rfl
  | cons e rest ih =>
    rw [List.map_cons, ← ih]
    rfl

theorem distinct_iff :
    Distinct entries ↔ (entries.map Prod.fst).Nodup ∧ ∀ e ∈ entries, e.2.toValue.Distinct := by
  rw [Distinct, Value.distinct_table_iff, entriesToValues_eq_map, List.map_map,
    List.forall_mem_map]
  exact Iff.rfl

theorem Distinct.nil : Distinct [] :=
  distinct_iff.mpr ⟨List.nodup_nil, fun e he => by cases he⟩

theorem Distinct.insert (h : Distinct entries) (hkey : key ∉ entries.map Prod.fst)
    (hnode : node.toValue.Distinct) : Distinct (entries ++ [(key, node)]) := by
  rw [distinct_iff] at h ⊢
  constructor
  · rw [List.map_append]
    exact List.nodup_append_comm.mp (List.nodup_cons.mpr ⟨hkey, h.1⟩)
  · intro e he
    rcases List.mem_append.mp he with he | he
    · exact h.2 e he
    · rw [List.mem_singleton.mp he]
      exact hnode

theorem Distinct.replace {old : Node} (h : Distinct (before ++ (key, old) :: after))
    (hnode : node.toValue.Distinct) : Distinct (before ++ (key, node) :: after) := by
  rw [distinct_iff] at h ⊢
  constructor
  · simpa using h.1
  · intro e he
    rcases List.mem_append.mp he with he | he
    · exact h.2 e (List.mem_append_left _ he)
    · rcases List.mem_cons.mp he with rfl | he
      · exact hnode
      · exact h.2 e (List.mem_append_right _ (List.mem_cons_of_mem _ he))

theorem Distinct.remove (h : Distinct (before ++ (key, node) :: after)) :
    Distinct (before ++ after) := by
  rw [distinct_iff] at h ⊢
  have hsub : (before ++ after).Sublist (before ++ (key, node) :: after) :=
    (List.Sublist.refl before).append (List.sublist_cons_self _ after)
  exact ⟨h.1.sublist (hsub.map Prod.fst), fun e he => h.2 e (hsub.subset he)⟩

theorem Distinct.inside (h : Distinct (before ++ (key, node) :: after)) : node.toValue.Distinct :=
  (distinct_iff.mp h).2 (key, node) (List.mem_append_right _ List.mem_cons_self)

theorem split?_eq_some (h : split? name entries = some (before, node, after)) :
    entries = before ++ (name, node) :: after := by
  induction entries generalizing before with
  | nil => cases h
  | cons e rest ih =>
    obtain ⟨k, n⟩ := e
    unfold split? at h
    split at h
    · next hk =>
      cases h
      rw [hk]
      rfl
    · obtain ⟨⟨b, n', a⟩, hsplit, heq⟩ := Option.map_eq_some_iff.mp h
      cases heq
      rw [ih hsplit]
      rfl

theorem split?_eq_none (h : split? name entries = none) : name ∉ entries.map Prod.fst := by
  induction entries with
  | nil => simp
  | cons e rest ih =>
    obtain ⟨k, n⟩ := e
    unfold split? at h
    split at h
    · cases h
    · next hk =>
      have hrest := ih (Option.map_eq_none_iff.mp h)
      simp only [List.map_cons, List.mem_cons, not_or]
      exact ⟨fun heq => hk heq.symm, hrest⟩

/-! ### What is done to tables -/

theorem distinct_table {origin : Origin} :
    (Node.table origin entries).toValue.Distinct ↔ Distinct entries :=
  Iff.rfl

theorem tablesToValues_eq_map (tables : List Entries) :
    Node.tablesToValues tables = tables.map fun t => .table (Node.entriesToValues t) := by
  induction tables with
  | nil => rfl
  | cons t rest ih =>
    rw [List.map_cons, ← ih]
    rfl

theorem distinct_tables {last : Entries} {earlier : List Entries} :
    (Node.tables last earlier).toValue.Distinct ↔
      Distinct last ∧ ∀ t ∈ earlier, Distinct t := by
  rw [Node.toValue, Value.distinct_array_iff, tablesToValues_eq_map]
  simp only [List.mem_reverse, List.forall_mem_cons, List.forall_mem_map]
  exact Iff.rfl

theorem Distinct.insert? {entries' : Entries} (h : Distinct entries)
    (hnode : node.toValue.Distinct) (hinsert : Entries.insert? name node entries = some entries') :
    Distinct entries' := by
  unfold Entries.insert? at hinsert
  split at hinsert
  · next hnone =>
    cases hinsert
    exact h.insert (split?_eq_none hnone) hnode
  · cases hinsert

theorem Distinct.assign {v : Value} (hv : v.Distinct) {tables : List String}
    {entries' : Entries} (h : Distinct entries)
    (hassign : Entries.assign name v tables entries = some entries') : Distinct entries' := by
  induction tables generalizing entries entries' with
  | nil =>
    have hnode : (Node.value v).toValue.Distinct := hv
    exact h.insert? hnode hassign
  | cons key rest ih =>
    unfold Entries.assign at hassign
    split at hassign
    · next hnone =>
      obtain ⟨inner, hinner, heq⟩ := Option.bind_eq_some_iff.mp hassign
      cases heq
      exact h.insert (split?_eq_none hnone) (ih .nil hinner)
    · cases hassign
    · next before origin inner after hsome =>
      cases split?_eq_some hsome
      split at hassign
      · cases hassign
      · obtain ⟨inner', hinner, heq⟩ := Option.bind_eq_some_iff.mp hassign
        cases heq
        exact h.replace (ih (distinct_table.mp h.inside) hinner)
    · next before last earlier after hsome =>
      cases split?_eq_some hsome
      split at hassign
      · cases hassign
      · obtain ⟨last', hlast, heq⟩ := Option.bind_eq_some_iff.mp hassign
        cases heq
        obtain ⟨hold, hearlier⟩ := distinct_tables.mp h.inside
        exact h.replace (distinct_tables.mpr ⟨ih hold hlast, hearlier⟩)

/-- What an action keeps where headers lead, it keeps on the whole way there. -/
theorem Distinct.descend {α : Type} {act : Entries → Option (α × Entries)} {P : α → Prop}
    (hact : ∀ t a t', act t = some (a, t') → Distinct t → P a ∧ Distinct t')
    {tables : List String} {a : α} {entries' : Entries} (h : Distinct entries)
    (hdescend : Entries.descend act tables entries = some (a, entries')) :
    P a ∧ Distinct entries' := by
  induction tables generalizing entries entries' with
  | nil => exact hact _ _ _ hdescend h
  | cons key rest ih =>
    unfold Entries.descend at hdescend
    split at hdescend
    · next hnone =>
      obtain ⟨⟨b, inner⟩, hinner, heq⟩ := Option.bind_eq_some_iff.mp hdescend
      cases heq
      obtain ⟨ha, hnew⟩ := ih .nil hinner
      exact ⟨ha, h.insert (split?_eq_none hnone) hnew⟩
    · cases hdescend
    · next before origin inner after hsome =>
      cases split?_eq_some hsome
      obtain ⟨⟨b, inner'⟩, hinner, heq⟩ := Option.bind_eq_some_iff.mp hdescend
      cases heq
      obtain ⟨ha, hnew⟩ := ih (distinct_table.mp h.inside) hinner
      exact ⟨ha, h.replace hnew⟩
    · next before last earlier after hsome =>
      cases split?_eq_some hsome
      obtain ⟨⟨b, last'⟩, hlast, heq⟩ := Option.bind_eq_some_iff.mp hdescend
      cases heq
      obtain ⟨hold, hearlier⟩ := distinct_tables.mp h.inside
      obtain ⟨ha, hnew⟩ := ih hold hlast
      exact ⟨ha, h.replace (distinct_tables.mpr ⟨hnew, hearlier⟩)⟩

end Entries

/-! ### Building -/

namespace Draft
open Entries (distinct_table distinct_tables)

/-- A draft whose tables are distinct, the open one included. -/
def Distinct (d : Draft) : Prop :=
  Entries.Distinct d.root ∧ Entries.Distinct d.current

variable {d d' : Draft}

theorem Distinct.close {root : Entries} (h : d.Distinct) (hclose : d.close = some root) :
    Entries.Distinct root := by
  unfold Draft.close at hclose
  split at hclose
  · cases hclose
    exact h.2
  · obtain ⟨⟨u, root'⟩, hdescend, heq⟩ := Option.bind_eq_some_iff.mp hclose
    cases heq
    refine (Entries.Distinct.descend (P := fun _ => True) ?_ h.1 hdescend).2
    intro t a t' hput ht
    obtain ⟨t'', hinsert, heq⟩ := Option.map_eq_some_iff.mp hput
    cases heq
    exact ⟨trivial, ht.insert? (distinct_table.mpr h.2) hinsert⟩
  · obtain ⟨⟨u, root'⟩, hdescend, heq⟩ := Option.bind_eq_some_iff.mp hclose
    cases heq
    refine (Entries.Distinct.descend (P := fun _ => True) ?_ h.1 hdescend).2
    intro t a t' hput ht
    refine ⟨trivial, ?_⟩
    split at hput
    · next hnone =>
      cases hput
      exact ht.insert (Entries.split?_eq_none hnone) (distinct_tables.mpr ⟨h.2, by simp⟩)
    · next before last earlier after hsome =>
      cases hput
      cases Entries.split?_eq_some hsome
      obtain ⟨hlast, hearlier⟩ := distinct_tables.mp ht.inside
      exact ht.replace (distinct_tables.mpr ⟨h.2, List.forall_mem_cons.mpr ⟨hlast, hearlier⟩⟩)
    · cases hput

theorem distinct_openTable {p : Path} {root : Entries} (h : Entries.Distinct root)
    (hopen : openTable p root = some d) : d.Distinct := by
  unfold openTable at hopen
  obtain ⟨⟨current, root'⟩, hdescend, heq⟩ := Option.bind_eq_some_iff.mp hopen
  cases heq
  refine (Entries.Distinct.descend (P := Entries.Distinct) ?_ h hdescend).symm
  intro t a t' htake ht
  split at htake
  · cases htake
    exact ⟨.nil, ht⟩
  · next before inner after hsome =>
    cases htake
    cases Entries.split?_eq_some hsome
    exact ⟨distinct_table.mp ht.inside, ht.remove⟩
  · cases htake

end Draft

/-- A statement whose value, if it has one, is distinct. -/
def Statement.Distinct : Statement → Prop
  | .entry _ v => v.Distinct
  | _ => True

theorem Draft.Distinct.take {d d' : Draft} {s : Statement} (h : d.Distinct) (hs : s.Distinct)
    (htake : d.take s = some d') : d'.Distinct := by
  cases s with
  | entry p v =>
    obtain ⟨current, hassign, heq⟩ := Option.bind_eq_some_iff.mp htake
    cases heq
    exact ⟨h.1, Entries.Distinct.assign hs h.2 hassign⟩
  | table p =>
    obtain ⟨root, hclose, hopen⟩ := Option.bind_eq_some_iff.mp htake
    exact distinct_openTable (h.close hclose) hopen
  | element p =>
    obtain ⟨root, hclose, heq⟩ := Option.bind_eq_some_iff.mp htake
    cases heq
    exact ⟨h.close hclose, .nil⟩

theorem ofStatements?_distinct {statements : List Statement} {root : List (String × Value)}
    (h : ∀ s ∈ statements, s.Distinct) (hroot : ofStatements? statements = some root) :
    (Value.table root).Distinct := by
  unfold ofStatements? at hroot
  obtain ⟨d, hfold, hclose⟩ := Option.bind_eq_some_iff.mp hroot
  obtain ⟨entries, hentries, heq⟩ := Option.bind_eq_some_iff.mp hclose
  cases heq
  have hdraft : d.Distinct :=
    foldlM_keeps_some Draft.Distinct (fun _ s _ hs hd htake => hd.take (h s hs) htake)
      ⟨.nil, .nil⟩ hfold
  exact hdraft.close hentries

/-! ### Readers -/

open Text (Reader)
open Text.Reader

/-- Whatever a reader gives, from whatever text, is of one kind. -/
def Gives {α : Type} (r : Reader α) (P : α → Prop) : Prop :=
  ∀ text a rest, r text = some (a, rest) → P a

section
variable {α β : Type} {r s : Reader α} {f : α → Reader β} {P : α → Prop} {Q : β → Prop}

theorem gives_any (r : Reader α) : Gives r fun _ => True :=
  fun _ _ _ _ => trivial

theorem Gives.pure {a : α} (h : P a) : Gives (Pure.pure a) P := by
  intro text b rest heq
  cases heq
  exact h

theorem Gives.failure : Gives (Alternative.failure : Reader α) P :=
  nofun

theorem Gives.bind (hr : Gives r P) (hf : ∀ a, P a → Gives (f a) Q) : Gives (r >>= f) Q := by
  intro text b rest heq
  obtain ⟨⟨a, rest'⟩, hread, hrest⟩ := Option.bind_eq_some_iff.mp heq
  exact hf a (hr text a rest' hread) rest' b rest hrest

/-- What is read last decides what a reader gives. -/
theorem Gives.then (hf : ∀ a, Gives (f a) Q) : Gives (r >>= f) Q :=
  (gives_any r).bind fun a _ => hf a

theorem Gives.map {g : α → β} (h : Gives r fun a => Q (g a)) : Gives (g <$> r) Q := by
  rw [map_eq_pure_bind]
  exact h.bind fun _ ha => .pure ha

theorem Gives.orElse (hr : Gives r P) (hs : Gives s P) : Gives (r <|> s) P := by
  intro text a rest heq
  have hor : (r text <|> s text) = some (a, rest) := heq
  cases hread : r text with
  | none =>
    rw [hread] at hor
    exact hs text a rest hor
  | some found =>
    rw [hread] at hor
    exact hr text a rest (hread.trans hor)

theorem Gives.lift {x : Option α} (h : ∀ a, x = some a → P a) :
    Gives (liftM x : Reader α) P := by
  intro text a rest heq
  obtain ⟨b, hb, heq⟩ := Option.bind_eq_some_iff.mp heq
  cases heq
  exact h a hb

theorem Gives.whole {text : List Char} {a : α} (h : Gives r P) (hread : r.whole? text = some a) :
    P a := by
  unfold whole? at hread
  split at hread
  · next b hr =>
    cases hread
    exact h text a [] hr
  · cases hread

theorem Gives.many {item : Reader (Option α)} (h : Gives item fun found => ∀ a ∈ found, P a) :
    Gives (many item) fun items => ∀ a ∈ items, P a := by
  have hwithin : ∀ (n : Nat) (done : List α) (text : List Char) (items : List α)
      (rest : List Char), (∀ a ∈ done, P a) →
      manyWithin item n done text = some (items, rest) → ∀ a ∈ items, P a := by
    intro n
    induction n with
    | zero => exact fun _ _ _ _ _ heq => by cases heq
    | succ n ih =>
      intro done text items rest hdone heq
      unfold manyWithin at heq
      split at heq
      · cases heq
      · cases heq
        exact fun a ha => hdone a (List.mem_reverse.mp ha)
      · next a rest' hitem =>
        exact ih _ _ _ _ (List.forall_mem_cons.mpr ⟨h text _ _ hitem a rfl, hdone⟩) heq
  exact fun text items rest heq => hwithin _ _ _ _ _ (fun a ha => by cases ha) heq

end

/-! ### Values -/

theorem integerOf_gives (negative : Bool) (n : Nat) :
    Gives (integerOf negative n) Value.Distinct := by
  have hkept : ∀ i : Int, Gives
      (if -0x8000000000000000 ≤ i ∧ i < 0x8000000000000000 then return .integer i else failure)
      Value.Distinct := by
    intro i
    split
    · exact Gives.pure .integer
    · exact Gives.failure
  exact hkept _

theorem decimal_gives : Gives decimal Value.Distinct := by
  refine .then fun negative => .then fun whole => .then fun places => ?_
  cases places
  all_goals
    refine .then fun e => ?_
    dsimp only
    split
    · exact Gives.pure .floating
    · split
      · exact Gives.pure .floating
      · exact Gives.failure

/-- A value without others in it has no keys. -/
theorem scalar_gives : Gives scalar Value.Distinct := by
  have hbased : ∀ base mark, Gives (basedInteger base mark) Value.Distinct := fun base mark =>
    .then fun _ => .then fun _ => integerOf_gives _ _
  have hinteger : Gives integer Value.Distinct :=
    (hbased 16 "0x").orElse <| (hbased 8 "0o").orElse <| (hbased 2 "0b").orElse <|
      .then fun _ => .then fun _ => integerOf_gives _ _
  have hnamed : Gives namedNumber Value.Distinct :=
    .then fun _ => Gives.orElse (.then fun _ => .pure .floating) (.then fun _ => .pure .floating)
  have hmoment : Gives moment Value.Distinct :=
    Gives.orElse (.then fun _ => .then fun _ => .pure .moment) (.then fun _ => .pure .moment)
  unfold scalar
  refine .then fun next => ?_
  split
  · exact .map fun _ _ _ _ => .string
  · exact .map fun _ _ _ _ => .string
  · exact .then fun _ => .pure .boolean
  · exact .then fun _ => .pure .boolean
  · exact hmoment.orElse <| decimal_gives.orElse <| hnamed.orElse hinteger

theorem assignment_gives {value : Reader Value} (h : Gives value Value.Distinct) :
    Gives (assignment value) fun entry => entry.2.Distinct :=
  .then fun _ => .then fun _ => .then fun _ => h.bind fun _ hv => .pure hv

theorem arrayItems_gives {value : Reader Value} (h : Gives value Value.Distinct) :
    Gives (arrayItems value) fun items => ∀ v ∈ items, v.Distinct := by
  refine Gives.many (.then fun _ => .then fun closed => ?_)
  cases closed with
  | true => exact .pure nofun
  | false =>
    refine h.bind fun v hv => .then fun _ => .then fun next => .then fun comma => ?_
    split
    · exact .pure fun a ha => Option.some.inj ha ▸ hv
    · exact .failure

theorem inlineEntries_gives {value : Reader Value} (h : Gives value Value.Distinct) :
    Gives (inlineEntries value) fun entries => ∀ e ∈ entries, e.2.Distinct := by
  have hentry := assignment_gives h
  refine .then fun _ => .then fun closed => ?_
  cases closed with
  | true => exact .pure fun e he => by cases he
  | false =>
    refine hentry.bind fun first hfirst => Gives.bind (P := fun rest => ∀ e ∈ rest, e.2.Distinct)
      (.many (.then fun _ => .then fun closed => ?_)) fun rest hrest =>
        .pure (List.forall_mem_cons.mpr ⟨hfirst, hrest⟩)
    cases closed with
    | true => exact .pure nofun
    | false =>
      exact .then fun _ => hentry.bind fun entry hv => .pure fun a ha => Option.some.inj ha ▸ hv

theorem inlineTable_gives {value : Reader Value} (h : Gives value Value.Distinct) :
    Gives (inlineTable value) Value.Distinct := by
  refine (inlineEntries_gives h).bind fun entries hall => ?_
  have hassigns : ∀ t, entries.foldlM (fun t e => Entries.assign e.1.name e.2 e.1.tables t) [] =
      some t → Entries.Distinct t := fun t ht =>
    foldlM_keeps_some Entries.Distinct
      (fun _ e _ he hdistinct hassign => hdistinct.assign (hall e he) hassign) .nil ht
  exact (Gives.lift hassigns).bind fun t ht => .pure ht

theorem value_gives (room : Nat) : Gives (value room) Value.Distinct := by
  induction room with
  | zero => exact scalar_gives
  | succ room ih =>
    unfold value
    refine .then fun next => ?_
    split
    · exact .then fun _ =>
        .map fun text items rest h => .array (arrayItems_gives ih text items rest h)
    · exact .then fun _ => inlineTable_gives ih
    · exact scalar_gives

/-! ### Documents -/

theorem statement_gives : Gives statement Statement.Distinct := by
  refine .then fun header => ?_
  cases header with
  | true =>
    refine .then fun double => ?_
    cases double with
    | true => exact .then fun _ => .then fun _ => .pure trivial
    | false => exact .then fun _ => .then fun _ => .pure trivial
  | false => exact (assignment_gives (value_gives maxNesting)).bind fun _ hv => .pure hv

theorem line_gives : Gives line fun found => ∀ s ∈ found, s.Distinct := by
  refine .then fun _ => .then fun next => ?_
  have hend : ∀ found : Option Statement, (∀ s ∈ found, s.Distinct) →
      Gives (do lineEnd; return found) fun found => ∀ s ∈ found, s.Distinct :=
    fun found hfound => .then fun _ => .pure hfound
  have hfound : Gives (some <$> statement) fun found => ∀ s ∈ found, s.Distinct :=
    .map fun text s rest hread t ht => Option.some.inj ht ▸ statement_gives text s rest hread
  split
  case h_5 => exact hfound.bind hend
  all_goals exact hend none nofun

/-- **No table of a document has two entries of one key**, at any depth. -/
theorem ofText?_distinct {text : List Char} {root : List (String × Value)}
    (h : ofText? text = some root) : (Value.table root).Distinct := by
  obtain ⟨statements, hread, hroot⟩ := Option.bind_eq_some_iff.mp h
  refine ofStatements?_distinct ?_ hroot
  unfold statements? at hread
  obtain ⟨found, hwhole, heq⟩ := Option.map_eq_some_iff.mp hread
  cases heq
  intro s hs
  obtain ⟨o, ho, hsome⟩ := List.mem_filterMap.mp hs
  have hlines : Gives lines fun found => ∀ o ∈ found, ∀ s ∈ o, s.Distinct := by
    refine Gives.many (.then fun ended => ?_)
    cases ended with
    | true => exact .pure nofun
    | false => exact line_gives.bind fun o ho => .pure fun a ha => Option.some.inj ha ▸ ho
  exact hlines.whole hwhole o ho s hsome

end HttpEcho.Toml
