import Mathlib.Data.List.Nodup
import Vhdl93.Proofs.Toml.Tables

set_option autoImplicit false

namespace Vhdl93.Toml

def items (text : String) : Option (List Item) :=
  items? ((skipMark text.toList).length + 1) (skipMark text.toList)

theorem parse?_eq (text : String) :
    parse? text = (items text).bind fun is => (is.foldlM Draft.add {}).map Draft.entries := by
  cases found : items text with
  | none =>
    rw [items] at found
    simp [parse?, found]
  | some is =>
    rw [items] at found
    simp only [parse?, found, Option.bind_eq_bind, Option.bind_some, Option.pure_def,
      Option.map_eq_bind]
    rfl

def Item.plain (e : String × Value) : Item := .pair [e.1] e.2

namespace Entries

theorem set_of_absent {key : String} (value : Value) {es : Entries} (absent : key ∉ es.keys) :
    es.set key value = es ++ [(key, value)] := by
  induction es with
  | nil => rfl
  | cons e es ih =>
    rw [keys, List.map_cons, List.mem_cons, not_or] at absent
    rw [set, if_neg (Ne.symm absent.1), ih absent.2, List.cons_append]

theorem assign_plain (key : String) (value : Value) (es : Entries) :
    es.assign value [key] = if key ∈ es.keys then none else some (es ++ [(key, value)]) := by
  rw [assign]
  split
  · rename_i absent
    have absent : key ∉ es.keys := by simp [mem_keys_iff, absent]
    rw [if_neg absent, set_of_absent value absent]
  · rename_i found
    rw [if_pos (by simp [mem_keys_iff, found])]

end Entries

theorem add_plain (es : Entries) (e : String × Value) :
    Draft.add ⟨es, []⟩ (.plain e) = if e.1 ∈ es.keys then none else some ⟨es ++ [e], []⟩ := by
  simp only [Item.plain, Draft.add, List.isEmpty_nil, if_true, Entries.assign_plain]
  split <;> rfl

theorem foldlM_plain {es : Entries} (unique : es.keys.Nodup) (later : Entries) :
    (later.map Item.plain).foldlM Draft.add ⟨es, []⟩ =
      if (Entries.keys (es ++ later)).Nodup then some ⟨es ++ later, []⟩ else none := by
  -- The entries so far have distinct keys, else the document had been refused before.
  induction later generalizing es with
  | nil => simp [unique]
  | cons e later ih =>
    rw [List.map_cons, List.foldlM_cons, add_plain]
    by_cases taken : e.1 ∈ es.keys
    · have twice : ¬ (Entries.keys (es ++ e :: later)).Nodup := by
        rw [Entries.keys, List.map_append, List.map_cons]
        exact fun unique => (List.nodup_middle.1 unique).notMem (List.mem_append_left _ taken)
      rw [if_pos taken, if_neg twice]
      rfl
    · have grown : (Entries.keys (es ++ [e])).Nodup := by
        rw [Entries.keys, List.map_append, List.map_singleton, List.nodup_append_comm]
        exact List.nodup_cons.2 ⟨taken, unique⟩
      rw [if_neg taken, Option.bind_eq_bind, Option.bind_some, ih grown, List.append_assoc,
        List.singleton_append]

theorem parse?_of_plain {text : String} {es : Entries} (plain : items text = some (es.map .plain)) :
    parse? text = if es.keys.Nodup then some es else none := by
  have none_yet : (Entries.keys []).Nodup := List.nodup_nil
  have folded := foldlM_plain none_yet es
  rw [List.nil_append] at folded
  rw [parse?_eq, plain, Option.bind_some, folded]
  split <;> rfl

theorem load?_of_plain {text : String} {es : Entries} (plain : items text = some (es.map .plain)) :
    load? text = if es.keys.Nodup ∧ entriesLoadable es = true then some es else none := by
  rw [load?, parse?_of_plain plain]
  by_cases unique : es.keys.Nodup <;> simp [unique]

end Vhdl93.Toml
