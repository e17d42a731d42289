import Mathlib.Algebra.GroupWithZero.Nat
import Mathlib.Data.List.Forall2
import Mathlib.Data.List.Induction
import ProgramTree.Codec

/-!
Writing values as data and reading them again. A pair of functions is faithful (`Datum.Faithful`) if
everything that is written is read as what it was, and if everything that is read from data in the right
form is written as it was, up to the order of the fields in records (`Datum.Reorder`).
-/

namespace ProgramTree

namespace Datum

/-- The same data, with the fields of records in another order at any depth. -/
inductive Reorder : Datum → Datum → Prop where
  | refl (d : Datum) : Reorder d d
  | trans {d d' d'' : Datum} : Reorder d d' → Reorder d' d'' → Reorder d d''
  | fields {entries entries' : List (String × Datum)} :
      entries.Perm entries' → Reorder (.record entries) (.record entries')
  | value {before after : List (String × Datum)} {name : String} {d d' : Datum} : Reorder d d' →
      Reorder (.record (before ++ (name, d) :: after)) (.record (before ++ (name, d') :: after))
  | item {before after : List Datum} {d d' : Datum} : Reorder d d' →
      Reorder (.list (before ++ d :: after)) (.list (before ++ d' :: after))

namespace Reorder

theorem items {xs ys : List Datum} (each : List.Forall₂ Reorder xs ys) :
    Reorder (.list xs) (.list ys) := by
  have behind : ∀ before, Reorder (.list (before ++ xs)) (.list (before ++ ys)) := by
    induction each with
    | nil => exact fun before => .refl _
    | @cons x y xs ys first _ ih =>
      intro before
      have rest := ih (before ++ [y])
      simp only [List.append_assoc, List.singleton_append] at rest
      exact .trans (.item first) rest
  exact behind []

theorem values {xs ys : List (String × Datum)}
    (each : List.Forall₂ (fun x y => x.1 = y.1 ∧ Reorder x.2 y.2) xs ys) :
    Reorder (.record xs) (.record ys) := by
  have behind : ∀ before, Reorder (.record (before ++ xs)) (.record (before ++ ys)) := by
    induction each with
    | nil => exact fun before => .refl _
    | @cons x y xs ys first _ ih =>
      intro before
      obtain ⟨name, d⟩ := x
      obtain ⟨rfl, same⟩ := first
      have rest := ih (before ++ [y])
      simp only [List.append_assoc, List.singleton_append] at rest
      exact .trans (.value same) rest
  exact behind []

end Reorder

/-- A record of exactly these fields, in any order. -/
def Declares (names : List String) (d : Datum) : Prop :=
  ∃ entries, d = .record entries ∧ (entries.map Prod.fst).Perm names

def IsText (d : Datum) : Prop :=
  ∃ s, d = .text s

/-- The elements, if the datum is a list, are in a form. -/
def Items (form : Datum → Prop) (d : Datum) : Prop :=
  ∀ items, d = .list items → ∀ x ∈ items, form x

theorem lookup_of_mem {entries : List (String × Datum)} {name : String} {v : Datum}
    (nodup : (entries.map Prod.fst).Nodup) (mem : (name, v) ∈ entries) :
    entries.lookup name = some v := by
  induction entries with
  | nil => cases mem
  | cons entry entries ih =>
    obtain ⟨fresh, nodup⟩ := List.nodup_cons.mp nodup
    rw [List.lookup_cons]
    rcases List.mem_cons.mp mem with rfl | later
    · simp
    · have other : name ≠ entry.1 := fun same => fresh (same ▸ List.mem_map_of_mem later)
      simp [beq_eq_false_iff_ne.mpr other, ih nodup later]

namespace Declares

variable {names : List String} {d : Datum}

theorem byName (declares : d.Declares names) (listing : List String) : d.byName listing = d := by
  obtain ⟨entries, rfl, -⟩ := declares
  rfl

/-- Every declared field is there. -/
theorem field (declares : d.Declares names) {name : String} (mem : name ∈ names) :
    ∃ v, d.field? name = some v := by
  obtain ⟨entries, rfl, keys⟩ := declares
  obtain ⟨⟨key, v⟩, there, rfl⟩ := List.mem_map.mp (keys.mem_iff.mpr mem)
  cases found : entries.lookup key with
  | some u => exact ⟨u, found⟩
  | none =>
    have missing := List.lookup_eq_none_iff.mp found (key, v) there
    simp at missing

/-- A record of the same fields with the same values is the same record. -/
theorem reorder {entries : List (String × Datum)} (declares : d.Declares names) (nodup : names.Nodup)
    (listed : entries.map Prod.fst = names)
    (each : ∀ name v, (name, v) ∈ entries → ∀ u, d.field? name = some u → u.Reorder v) :
    d.Reorder (.record entries) := by
  subst listed
  have all : ∀ name ∈ entries.map Prod.fst, ∃ v, d.field? name = some v := fun _ => declares.field
  obtain ⟨found, rfl, keys⟩ := declares
  -- As the names differ, a record is the list of its names with what is looked up for each.
  let get : String → String × Datum := fun name => (name, (found.lookup name).getD .null)
  have listed : found = (found.map Prod.fst).map get := by
    rw [List.map_map]
    refine (List.map_id found).symm.trans (List.map_congr_left fun entry mem => ?_)
    simp [get, lookup_of_mem (keys.nodup_iff.mpr nodup) mem]
  rw [listed]
  refine .trans (.fields (keys.map get)) (.values ?_)
  rw [List.map_map, List.forall₂_map_left_iff, List.forall₂_same]
  intro entry mem
  obtain ⟨u, there⟩ := all entry.1 (List.mem_map_of_mem mem)
  have value : get entry.1 = (entry.1, u) := by
    simp [get, show found.lookup entry.1 = some u from there]
  exact ⟨rfl, by simpa [value] using each entry.1 entry.2 mem u there⟩

end Declares

/-- Values that `fit` are read as they are written, and data of the right `form` are written as they are
read. -/
structure Faithful {α : Type} (fit : α → Prop) (form : Datum → Prop) (encode : α → Datum)
    (decode? : Datum → Option α) : Prop where
  reads : ∀ a, fit a → decode? (encode a) = some a
  formed : ∀ a, form (encode a)
  writes : ∀ {d a}, decode? d = some a → form d → d.Reorder (encode a)

namespace Faithful

variable {α : Type} {fit : α → Prop} {form : Datum → Prop} {encode : α → Datum}
  {decode? : Datum → Option α}

theorem imp {fit' : α → Prop} {form' : Datum → Prop} (faithful : Faithful fit form encode decode?)
    (fits : ∀ a, fit' a → fit a) (forms : ∀ d, form d ↔ form' d) :
    Faithful fit' form' encode decode? where
  reads a fit := faithful.reads a (fits a fit)
  formed a := (forms _).mp (faithful.formed a)
  writes read formed := faithful.writes read ((forms _).mpr formed)

/-- Data that can be written in one way only. -/
theorem of_eq (reads : ∀ a, fit a → decode? (encode a) = some a)
    (eq : ∀ {d a}, decode? d = some a → d = encode a) :
    Faithful fit (fun _ => True) encode decode? where
  reads := reads
  formed _ := trivial
  writes read _ := by
    rw [eq read]
    exact .refl _

theorem list (faithful : Faithful fit form encode decode?) :
    Faithful (fun xs => ∀ a ∈ xs, fit a) (Items form) (fun xs => .list (xs.map encode))
      (listOf? decode?) where
  reads xs fits := by
    change (xs.map encode).mapM decode? = some xs
    induction xs with
    | nil => rfl
    | cons x xs ih =>
      obtain ⟨first, later⟩ := List.forall_mem_cons.mp fits
      simp [faithful.reads x first, ih later]
  formed xs := by
    rintro _ ⟨⟩ x mem
    obtain ⟨a, -, rfl⟩ := List.mem_map.mp mem
    exact faithful.formed a
  writes {d xs} read formed := by
    obtain ⟨items, found, all⟩ := Option.bind_eq_some_iff.mp read
    cases d with
    | list items' =>
      cases found
      have forms := formed items rfl
      clear read formed
      refine .items ?_
      induction items generalizing xs with
      | nil =>
        cases all
        exact .nil
      | cons item items ih =>
        obtain ⟨first, later⟩ := List.forall_mem_cons.mp forms
        simp only [List.mapM_cons, Option.bind_eq_bind, Option.pure_def, Option.bind_eq_some_iff,
          Option.some.injEq] at all
        obtain ⟨a, one, rest, more, rfl⟩ := all
        exact .cons (faithful.writes one first) (ih more later)
    | _ => cases found

theorem option (faithful : Faithful fit form encode decode?) (present : ∀ a, encode a ≠ .null) :
    Faithful (fun a? => ∀ a ∈ a?, fit a) (fun d => d = .null ∨ form d) (ofOption encode)
      (option? decode?) where
  reads a? fits := by
    cases a? with
    | none => rfl
    | some a =>
      have read := faithful.reads a (fits a rfl)
      rw [ofOption, option?.eq_2 _ _ (present a), read]
      rfl
  formed a? := by
    cases a? with
    | none => exact .inl rfl
    | some a => exact .inr (faithful.formed a)
  writes {d a?} read formed := by
    by_cases missing : d = .null
    · subst missing
      cases read
      exact .refl _
    · rw [option?.eq_2 _ _ missing] at read
      obtain ⟨a, found, rfl⟩ := Option.map_eq_some_iff.mp read
      exact faithful.writes found (formed.resolve_left missing)

end Faithful

end Datum

namespace Hex

theorem digit?_digitChar : ∀ k < 16, digit? (Nat.digitChar k) = some k := by
  decide

theorem digitChar_of_digit? {c : Char} {k : Nat} (read : digit? c = some k) :
    Nat.digitChar k = c ∧ k < 16 := by
  have decimal : ∀ n < 58, 48 ≤ n → Nat.digitChar (n - 48) = Char.ofNat n := by decide
  have letter : ∀ n < 103, 97 ≤ n → Nat.digitChar (n - 97 + 10) = Char.ofNat n := by decide
  unfold digit? at read
  split at read
  · next within =>
    obtain ⟨low, high⟩ : 48 ≤ c.toNat ∧ c.toNat ≤ 57 := within
    cases read
    exact ⟨(decimal _ (by omega) low).trans c.ofNat_toNat, by change c.toNat - 48 < 16; omega⟩
  · split at read
    · next within =>
      obtain ⟨low, high⟩ : 97 ≤ c.toNat ∧ c.toNat ≤ 102 := within
      cases read
      exact ⟨(letter _ (by omega) low).trans c.ofNat_toNat, by change c.toNat - 97 + 10 < 16; omega⟩
    · cases read

theorem value?_append (cs : List Char) (c : Char) : ∀ n,
    value? n (cs ++ [c]) = (value? n cs).bind fun m => (digit? c).map fun k => 16 * m + k := by
  induction cs with
  | nil =>
    intro n
    simp only [List.nil_append, value?, Option.bind_some]
    cases digit? c <;> rfl
  | cons c' cs ih =>
    intro n
    simp only [List.cons_append, value?, ih]
    cases digit? c' <;> rfl

theorem length_digits (width : Nat) : ∀ n, (digits width n).length = width := by
  induction width with
  | zero => exact fun n => rfl
  | succ width ih => intro n; simp [digits, ih]

/-- The last digits of a number denote what is left of it. -/
theorem value?_digits (width : Nat) : ∀ n, value? 0 (digits width n) = some (n % 16 ^ width) := by
  induction width with
  | zero => intro n; simp [digits, value?, Nat.mod_one]
  | succ width ih =>
    intro n
    rw [digits, value?_append, ih, digit?_digitChar _ (Nat.mod_lt n (by decide)), Nat.pow_succ',
      Nat.mod_mul]
    simp [Nat.add_comm]

/-- Digits are those of the number that they denote. -/
theorem digits_of_value? {cs : List Char} : ∀ {v : Nat}, value? 0 cs = some v →
    digits cs.length v = cs ∧ v < 16 ^ cs.length := by
  induction cs using List.reverseRecOn with
  | nil =>
    intro v read
    cases read
    exact ⟨rfl, by decide⟩
  | append_singleton cs c ih =>
    intro v read
    rw [value?_append] at read
    obtain ⟨m, before, last⟩ := Option.bind_eq_some_iff.mp read
    obtain ⟨k, found, rfl⟩ := Option.map_eq_some_iff.mp last
    obtain ⟨char, less⟩ := digitChar_of_digit? found
    obtain ⟨same, bound⟩ := ih before
    rw [List.length_append, List.length_singleton, digits, Nat.pow_succ']
    have quotient : (16 * m + k) / 16 = m := by omega
    have remainder : (16 * m + k) % 16 = k := by omega
    exact ⟨by rw [quotient, remainder, same, char], by omega⟩

theorem decode?_encode (word : UInt64) : decode? (encode word) = some word := by
  have bound : word.toNat < 16 ^ 16 := word.toNat_lt
  rw [decode?, encode, String.toList_ofList, length_digits, if_pos rfl, value?_digits,
    Nat.mod_eq_of_lt bound]
  simp

theorem eq_encode_of_decode? {s : String} {word : UInt64} (read : decode? s = some word) :
    s = encode word := by
  unfold decode? at read
  split at read
  · next sixteen =>
    obtain ⟨v, found, rfl⟩ := Option.map_eq_some_iff.mp read
    obtain ⟨same, bound⟩ := digits_of_value? found
    rw [sixteen] at same bound
    have value : v.toUInt64.toNat = v := Nat.mod_eq_of_lt bound
    rw [encode, value, same, String.ofList_toList]
  · cases read

end Hex

section Atoms

open Datum

theorem eq_of_text? {d : Datum} {s : String} (read : d.text? = some s) : d = .text s := by
  cases d with
  | text _ =>
    cases read
    rfl
  | _ => cases read

theorem eq_of_bool? {d : Datum} {b : Bool} (read : d.bool? = some b) : d = .bool b := by
  cases d with
  | bool _ =>
    cases read
    rfl
  | _ => cases read

theorem text_faithful : Faithful (fun _ => True) (fun _ => True) .text text? :=
  .of_eq (fun _ _ => rfl) eq_of_text?

theorem optionalText_faithful :
    Faithful (fun _ => True) (fun _ => True) (ofOption .text) (option? text?) :=
  (text_faithful.option (by simp)).imp (by simp) (by simp)

theorem flag_faithful : Faithful (fun _ => True) (fun _ => True) .bool bool? :=
  .of_eq (fun _ _ => rfl) eq_of_bool?

theorem below?_nat {bound n : Nat} (less : n < bound) : (Datum.nat n).below? bound = some n := by
  simp [Datum.nat, below?, nat?, int?, less]

theorem nat_of_below? {bound n : Nat} {d : Datum} (read : d.below? bound = some n) :
    d = .nat n ∧ n < bound := by
  obtain ⟨found, less⟩ := Option.filter_eq_some_iff.mp read
  cases d with
  | int value =>
    cases value with
    | ofNat m =>
      cases found
      exact ⟨rfl, by simpa using less⟩
    | negSucc m => cases found
  | _ => cases found

theorem NodeId.faithful :
    Faithful (fun id : NodeId => id.index < limit) (fun _ => True) encode decode? := by
  refine .of_eq (fun id fits => by simp [encode, decode?, below?_nat fits]) fun {d id} read => ?_
  obtain ⟨n, found, rfl⟩ := Option.map_eq_some_iff.mp read
  exact (nat_of_below? found).1

theorem NodeId.option_faithful :
    Faithful (fun id? => ∀ id ∈ id?, id.index < NodeId.limit) (fun _ => True) (ofOption NodeId.encode)
      (option? NodeId.decode?) :=
  (NodeId.faithful.option (by simp [encode, Datum.nat])).imp (fun _ fits => fits) (by simp)

theorem Span.decode?_encode (s : Span) : Span.decode? s.encode = some s := by
  simp [encode, decode?, below?_nat s.start.toNat_lt_size, below?_nat s.stop.toNat_lt_size]

theorem Span.eq_encode_of_decode? {d : Datum} {s : Span} (read : Span.decode? d = some s) :
    d = s.encode := by
  unfold decode? at read
  split at read
  · simp only [Option.pure_def, Option.bind_eq_bind, Option.bind_eq_some_iff, Option.some.injEq] at read
    obtain ⟨m, first, n, second, rfl⟩ := read
    obtain ⟨rfl, less⟩ := nat_of_below? first
    obtain ⟨rfl, less'⟩ := nat_of_below? second
    simp [encode, Nat.mod_eq_of_lt less, Nat.mod_eq_of_lt less']
  · cases read

namespace Literal

theorem int64?_toInt (value : Int64) : int64? (.int value.toInt) = some value := by
  have low := Int64.minValue_le_toInt value
  have high := Int64.toInt_le value
  simp only [int64?, int?, Option.filter_some, low, high, and_self, decide_true, if_true,
    Option.map_some, Int64.ofInt_toInt]

theorem toInt_of_int64? {d : Datum} {value : Int64} (read : int64? d = some value) :
    d = .int value.toInt := by
  obtain ⟨n, found, rfl⟩ := Option.map_eq_some_iff.mp read
  obtain ⟨there, within⟩ := Option.filter_eq_some_iff.mp found
  cases d with
  | int m =>
    cases there
    obtain ⟨low, high⟩ : Int64.minValue.toInt ≤ n ∧ n ≤ Int64.maxValue.toInt := by simpa using within
    rw [Int64.toInt_minValue] at low
    rw [Int64.toInt_maxValue] at high
    rw [Int64.toInt_ofInt_of_le low (by omega)]
  | _ => cases there

theorem decode?_encode (v : Literal) : decode? v.encode = some v := by
  cases v with
  | int value => simp [encode, decode?, int64?_toInt]
  | float bits => simp [encode, decode?, text?, Hex.decode?_encode]
  | bool value => rfl
  | text value => rfl

theorem eq_encode_of_decode? {d : Datum} {v : Literal} (read : decode? d = some v) : d = v.encode := by
  unfold decode? at read
  split at read
  · obtain ⟨value, found, rfl⟩ := Option.map_eq_some_iff.mp read
    rw [toInt_of_int64? found, encode]
  · obtain ⟨bits, found, rfl⟩ := Option.map_eq_some_iff.mp read
    obtain ⟨s, there, same⟩ := Option.bind_eq_some_iff.mp found
    rw [eq_of_text? there, Hex.eq_encode_of_decode? same, encode]
  · obtain ⟨value, found, rfl⟩ := Option.map_eq_some_iff.mp read
    rw [eq_of_bool? found, encode]
  · obtain ⟨value, found, rfl⟩ := Option.map_eq_some_iff.mp read
    rw [eq_of_text? found, encode]
  · cases read

theorem faithful : Faithful (fun _ => True) (fun _ => True) encode decode? :=
  .of_eq (fun v _ => decode?_encode v) eq_encode_of_decode?

end Literal

namespace Named

variable {α : Type} [Named α]

/-- No two values have the same name. -/
def Lawful (α : Type) [Named α] : Prop :=
  ∀ a : α, ofName? (name a) = some a

theorem name_of_ofName? {s : String} {a : α} (read : ofName? s = some a) : name a = s :=
  eq_of_beq (List.find?_some (p := fun a => name a == s) read)

theorem Lawful.faithful (lawful : Lawful α) :
    Faithful (fun _ : α => True) IsText encode wordOf? where
  reads a _ := lawful a
  formed a := ⟨name a, rfl⟩
  writes {d a} read formed := by
    obtain ⟨s, rfl⟩ := formed
    rw [← name_of_ofName? read]
    exact .refl _

end Named

theorem Tag.named : Named.Lawful Tag := by
  intro t
  cases t <;> rfl

theorem Vocabulary.lawful (v : Vocabulary) : Named.Lawful v.Word := by
  intro a
  cases v <;> cases a <;> rfl

theorem EndpointKind.named : Named.Lawful EndpointKind := by
  intro a
  cases a <;> rfl

end Atoms

end ProgramTree
