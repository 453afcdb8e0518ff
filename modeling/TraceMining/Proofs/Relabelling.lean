import Mathlib.Data.List.Basic
import Mathlib.Data.Prod.Basic
import TraceMining.Proofs.Ordered

/-!
# Renaming the keys of a map

If the keys of a map are renamed in such a way that their order stays the same, every operation on
the map does what it did before, under the new names. The values may be changed along with the
keys.
-/

namespace TraceMining

variable {κ κ' ν ν' : Type} [Ord κ] [Ord κ']

/-- The new name of a key is to another one as the key itself is to the other key. -/
def KeepsOrder (f : κ → κ') : Prop := ∀ a b, compare (f a) (f b) = compare a b

theorem keepsOrder_id : KeepsOrder (id : κ → κ) := fun _ _ => rfl

theorem KeepsOrder.injective [Std.ReflOrd κ'] [Std.LawfulEqOrd κ] {f : κ → κ'}
    (hf : KeepsOrder f) : Function.Injective f := by
  intro a b hab
  apply Std.LawfulEqOrd.eq_of_compare
  rw [← hf, hab]
  exact Std.ReflCmp.compare_self

variable {f : κ → κ'} (hf : KeepsOrder f) (g : ν → ν')

include hf in
theorem lookupEntry_map (k : κ) (entries : List (κ × ν)) :
    lookupEntry (f k) (entries.map (Prod.map f g)) = (lookupEntry k entries).map g := by
  induction entries with
  | nil => rfl
  | cons e rest ih =>
    obtain ⟨k', v⟩ := e
    rw [List.map_cons, Prod.map_apply, lookupEntry, lookupEntry, hf, ih]
    split <;> rfl

include hf in
theorem insertEntry_map (k : κ) (v : ν) (entries : List (κ × ν)) :
    insertEntry (f k) (g v) (entries.map (Prod.map f g)) =
      (insertEntry k v entries).map (Prod.map f g) := by
  induction entries with
  | nil => rfl
  | cons e rest ih =>
    obtain ⟨k', v'⟩ := e
    rw [List.map_cons, Prod.map_apply, insertEntry, insertEntry, hf, ih]
    split <;> rfl

namespace OrderedMap

/-- The map with other names for its keys and other values. -/
def relabel (m : OrderedMap κ ν) : OrderedMap κ' ν' :=
  ⟨m.entries.map (Prod.map f g), List.pairwise_map.2 (m.increasing.imp fun h => (hf _ _).trans h)⟩

@[simp] theorem entries_relabel (m : OrderedMap κ ν) :
    (m.relabel hf g).entries = m.entries.map (Prod.map f g) := rfl

theorem keys_relabel (m : OrderedMap κ ν) : (m.relabel hf g).keys = m.keys.map f := by
  rw [keys, keys, entries_relabel, List.map_map, List.map_map]
  rfl

@[simp] theorem size_relabel (m : OrderedMap κ ν) : (m.relabel hf g).size = m.size :=
  List.length_map _

@[simp] theorem isEmpty_relabel (m : OrderedMap κ ν) : (m.relabel hf g).isEmpty = m.isEmpty := by
  rw [isEmpty, isEmpty, entries_relabel, List.isEmpty_map]

theorem first?_relabel (m : OrderedMap κ ν) :
    (m.relabel hf g).first? = m.first?.map (Prod.map f g) := by
  rw [first?, first?, entries_relabel, List.head?_map]

theorem lookup_relabel (m : OrderedMap κ ν) (k : κ) :
    (m.relabel hf g).lookup (f k) = (m.lookup k).map g :=
  lookupEntry_map hf g k m.entries

theorem relabel_injective [Std.ReflOrd κ'] [Std.LawfulEqOrd κ] {g : ν → ν'}
    (hg : Function.Injective g) : Function.Injective (relabel hf g) := by
  intro m n h
  have hentries : m.entries.map (Prod.map f g) = n.entries.map (Prod.map f g) := congrArg entries h
  have heq := List.map_injective_iff.2 (hf.injective.prodMap hg) hentries
  cases m
  cases n
  cases heq
  rfl

theorem filter_relabel (p : κ' → ν' → Bool) (m : OrderedMap κ ν) :
    (m.relabel hf g).filter p = (m.filter fun k v => p (f k) (g v)).relabel hf g := by
  unfold filter relabel
  simp only [List.filter_map]
  rfl

variable [Std.TransOrd κ] [Std.TransOrd κ']

theorem relabel_insert (m : OrderedMap κ ν) (k : κ) (v : ν) :
    (m.insert k v).relabel hf g = (m.relabel hf g).insert (f k) (g v) := by
  unfold insert relabel
  simp only [insertEntry_map hf]

theorem relabel_insertAll (m : OrderedMap κ ν) (entries : List (κ × ν)) :
    (m.insertAll entries).relabel hf g =
      (m.relabel hf g).insertAll (entries.map (Prod.map f g)) := by
  induction entries generalizing m with
  | nil => rfl
  | cons e rest ih =>
    rw [insertAll, List.foldl_cons, ← insertAll, ih, relabel_insert]
    rfl

theorem relabel_ofList (entries : List (κ × ν)) :
    (ofList entries).relabel hf g = ofList (entries.map (Prod.map f g)) :=
  relabel_insertAll hf g empty entries

theorem relabel_alter (m : OrderedMap κ ν) (k : κ) (up : Option ν → ν) (up' : Option ν' → ν')
    (h : ∀ v, g (up v) = up' (v.map g)) :
    (m.alter k up).relabel hf g = (m.relabel hf g).alter (f k) up' := by
  rw [alter, alter, relabel_insert, lookup_relabel, h]

end OrderedMap

end TraceMining
