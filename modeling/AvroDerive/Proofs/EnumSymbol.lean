import AvroDerive.Proofs.UnionBranch
import Mathlib.Data.List.Induction

/-! # Symbols of enumerations

The listed texts of an enumeration become names, and different texts may become the same one. Each name is
taken once, where the first of its texts stands. -/
namespace AvroDerive

section Distinct

variable {α β : Type} [DecidableEq β]

theorem distinct_concat (ys : List β) (y : β) : distinct (ys ++ [y]) = addNew (distinct ys) y := by
  rw [distinct, addAll, List.foldl_append]
  rfl

/-- What a list gives stands in the order in which it is given first. -/
theorem distinct_in_order (f : α → Option β) (xs : List α) :
    (distinct (xs.filterMap f)).Pairwise fun y z =>
      xs.findIdx (fun x => f x = some y) < xs.findIdx (fun x => f x = some z) := by
  induction xs using List.reverseRecOn with
  | nil => exact List.Pairwise.nil
  | append_singleton xs x ih =>
    -- What was given before keeps its place, and what is new is given last.
    have given : ∀ y ∈ distinct (xs.filterMap f),
        xs.findIdx (fun x => f x = some y) < xs.length := by
      intro y hy
      obtain ⟨x, hx, hf⟩ := List.mem_filterMap.mp (mem_distinct.mp hy)
      exact List.findIdx_lt_length.mpr ⟨x, hx, decide_eq_true hf⟩
    have stays : ∀ y ∈ distinct (xs.filterMap f), (xs ++ [x]).findIdx (fun x => f x = some y) =
        xs.findIdx (fun x => f x = some y) := by
      intro y hy
      rw [List.findIdx_append, if_pos (given y hy)]
    have earlier : (distinct (xs.filterMap f)).Pairwise fun y z =>
        (xs ++ [x]).findIdx (fun x => f x = some y) < (xs ++ [x]).findIdx (fun x => f x = some z) := by
      refine ih.imp_of_mem fun hy hz h => ?_
      rwa [stays _ hy, stays _ hz]
    rw [List.filterMap_append]
    cases hf : f x with
    | none => rwa [List.filterMap_cons_none hf, List.filterMap_nil, List.append_nil]
    | some z =>
      rw [List.filterMap_cons_some hf, List.filterMap_nil, distinct_concat, addNew]
      split
      · exact earlier
      · next hz =>
        refine List.pairwise_append.mpr ⟨earlier, List.pairwise_singleton _ z, fun y hy z' hz' => ?_⟩
        obtain rfl := List.mem_singleton.mp hz'
        have last : xs.findIdx (fun x => f x = some z') = xs.length := by
          refine List.findIdx_eq_length_of_false fun x' hx' => decide_eq_false fun hf' => hz ?_
          exact mem_distinct.mpr (List.mem_filterMap.mpr ⟨x', hx', hf'⟩)
        rw [stays y hy, List.findIdx_append, last, if_neg (lt_irrefl _)]
        exact (given y hy).trans_le (Nat.le_add_left _ _)

end Distinct

namespace Schema

/-- The symbol for a listed value, which is a text that is not empty. -/
def symbolOf? (value : Json) : Option String :=
  (value.asString?.filter (· ≠ "")).map Name.ofText

section Symbols

variable {value : Json} {values : List Json} {symbol : String}

theorem symbol_of_iff : symbolOf? value = some symbol ↔
    ∃ text, value = .str text ∧ text ≠ "" ∧ Name.ofText text = symbol := by
  cases value with
  | str text =>
    by_cases h : text = "" <;> simp [symbolOf?, Json.asString?, Option.filter_some, h]
  | _ => simp [symbolOf?, Json.asString?]

theorem enum_symbols_eq (values : List Json) :
    enumSymbols values = distinct (values.filterMap symbolOf?) := by
  rw [enumSymbols, List.filter_filterMap, List.map_filterMap]
  rfl

theorem mem_enum_symbols : symbol ∈ enumSymbols values ↔
    ∃ text, .str text ∈ values ∧ text ≠ "" ∧ Name.ofText text = symbol := by
  rw [enum_symbols_eq, mem_distinct, List.mem_filterMap]
  simp only [symbol_of_iff]
  constructor
  · rintro ⟨_, hm, text, rfl, h⟩
    exact ⟨text, hm, h⟩
  · rintro ⟨text, hm, h⟩
    exact ⟨_, hm, text, rfl, h⟩

theorem enum_symbols_legal (h : symbol ∈ enumSymbols values) : Name.isLegal symbol = true := by
  obtain ⟨text, -, -, rfl⟩ := mem_enum_symbols.mp h
  exact Name.isLegal_ofText text

/-- Different legal names are the symbols for themselves. -/
theorem enum_symbols_of_legal {names : List String} (hd : names.Nodup)
    (hlegal : ∀ name ∈ names, Name.isLegal name = true) :
    enumSymbols (names.map .str) = names := by
  have own : ∀ name ∈ names, symbolOf? (.str name) = some name := by
    intro name hm
    have full : name ≠ "" := by
      rintro rfl
      exact absurd (hlegal "" hm) (by decide)
    exact symbol_of_iff.mpr ⟨name, rfl, full, Name.ofText_of_isLegal (hlegal name hm)⟩
  have same : names.filterMap (symbolOf? ∘ .str) = names.filterMap some := List.filterMap_congr own
  rw [enum_symbols_eq, List.filterMap_map, same, List.filterMap_some, distinct_of_nodup hd]

/-- The symbols of listed values are legal names without repetition, one for each text that is not empty.
They stand in the order of the first texts that they are made of, and they are their own symbols. -/
theorem symbols_name_texts (values : List Json) :
    (enumSymbols values).Nodup ∧ (∀ symbol ∈ enumSymbols values, Name.isLegal symbol = true) ∧
    (∀ symbol, symbol ∈ enumSymbols values ↔
      ∃ text, .str text ∈ values ∧ text ≠ "" ∧ Name.ofText text = symbol) ∧
    ((enumSymbols values).Pairwise fun symbol later =>
      values.findIdx (fun value => symbolOf? value = some symbol) <
        values.findIdx (fun value => symbolOf? value = some later)) ∧
    enumSymbols ((enumSymbols values).map .str) = enumSymbols values := by
  have legal : ∀ symbol ∈ enumSymbols values, Name.isLegal symbol = true :=
    fun _ => enum_symbols_legal
  have nodup : (enumSymbols values).Nodup := distinct_nodup _
  have order := distinct_in_order symbolOf? values
  rw [← enum_symbols_eq] at order
  exact ⟨nodup, legal, fun _ => mem_enum_symbols, order, enum_symbols_of_legal nodup legal⟩

/-- Two texts that become one name, a number and the empty text among others. -/
example : enumSymbols [.str "in progress", .ofNat 1, .str "", .str "2nd", .str "in-progress"] =
    ["in_progress", "_2nd"] := by
  decide

end Symbols

end Schema

end AvroDerive
