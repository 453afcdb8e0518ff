/-!
# Finite maps kept in key order

SPEC_FULL.md, 3: the maps of `Trace`, `TraceStore` and `MinerResult`.

A map is the list of its entries with strictly increasing keys. The list is the view: two maps
with the same entries are equal, every question about a map is a question about a list, and the
order in which a map is visited is the order of its keys. Main statements: an insertion keeps the
keys increasing (`KeysIncrease.insertEntry`), the inserted key is found with its new value
(`lookup_insert_self`) and no other key is disturbed (`lookup_insert_of_ne`).
-/

namespace TraceMining

variable {κ ν : Type}

/-- The keys of the entries strictly increase along the list. -/
def KeysIncrease [Ord κ] (entries : List (κ × ν)) : Prop :=
  entries.Pairwise fun x y => compare x.1 y.1 = .lt

/-- The value of the first entry with the key `k`. -/
def lookupEntry [Ord κ] (k : κ) : List (κ × ν) → Option ν
  | [] => none
  | (k', v) :: rest => if compare k k' = .eq then some v else lookupEntry k rest

/-- Puts an entry in its place; an entry with the same key gives way to the new one. -/
def insertEntry [Ord κ] (k : κ) (v : ν) : List (κ × ν) → List (κ × ν)
  | [] => [(k, v)]
  | (k', v') :: rest =>
    match compare k k' with
    | .lt => (k, v) :: (k', v') :: rest
    | .eq => (k, v) :: rest
    | .gt => (k', v') :: insertEntry k v rest

theorem mem_insertEntry [Ord κ] {k : κ} {v : ν} {e : κ × ν} :
    ∀ {entries : List (κ × ν)}, e ∈ insertEntry k v entries → e = (k, v) ∨ e ∈ entries
  | [], h => .inl (by simpa [insertEntry] using h)
  | (k', v') :: rest, h => by
    rw [insertEntry] at h
    split at h
    · simpa using h
    · rcases List.mem_cons.1 h with h | h
      · exact .inl h
      · exact .inr (List.mem_cons_of_mem _ h)
    · rcases List.mem_cons.1 h with h | h
      · exact .inr (h ▸ List.mem_cons_self)
      · exact (mem_insertEntry h).imp id (List.mem_cons_of_mem _)

/-- An insertion keeps the keys increasing. -/
theorem KeysIncrease.insertEntry [Ord κ] [Std.TransOrd κ] (k : κ) (v : ν) :
    ∀ {entries : List (κ × ν)}, KeysIncrease entries → KeysIncrease (insertEntry k v entries)
  | [], _ => by simp [KeysIncrease, TraceMining.insertEntry]
  | (k', v') :: rest, h => by
    have ⟨hk, hr⟩ := List.pairwise_cons.1 h
    rw [TraceMining.insertEntry]
    split
    · rename_i hlt
      exact List.pairwise_cons.2 ⟨fun e he => (List.mem_cons.1 he).elim (fun h => h ▸ hlt)
        fun he => Std.TransCmp.lt_trans hlt (hk e he), h⟩
    · rename_i heq
      exact List.pairwise_cons.2 ⟨fun e he => Std.TransCmp.lt_of_eq_of_lt heq (hk e he), hr⟩
    · rename_i hgt
      exact List.pairwise_cons.2 ⟨fun e he => (mem_insertEntry he).elim
        (fun h => h ▸ Std.OrientedCmp.gt_iff_lt.1 hgt) (hk e), KeysIncrease.insertEntry k v hr⟩

theorem lookupEntry_insertEntry_self [Ord κ] [Std.TransOrd κ] (k : κ) (v : ν) :
    ∀ entries : List (κ × ν), lookupEntry k (insertEntry k v entries) = some v
  | [] => by simp [insertEntry, lookupEntry]
  | e :: rest => by
    rw [insertEntry]
    split
    · simp [lookupEntry]
    · simp [lookupEntry]
    · rename_i hgt
      simp [lookupEntry, hgt, lookupEntry_insertEntry_self k v rest]

theorem lookupEntry_insertEntry_of_ne [Ord κ] [Std.TransOrd κ] {k k' : κ} (v : ν)
    (h : compare k' k ≠ .eq) :
    ∀ entries : List (κ × ν), lookupEntry k' (insertEntry k v entries) = lookupEntry k' entries
  | [] => by simp [insertEntry, lookupEntry, h]
  | e :: rest => by
    rw [insertEntry]
    split
    · simp [lookupEntry, h]
    · rename_i heq
      have : compare k' e.1 ≠ .eq := fun he =>
        h (Std.TransCmp.eq_trans he (Std.OrientedCmp.eq_comm.1 heq))
      simp [lookupEntry, h, this]
    · simp [lookupEntry, lookupEntry_insertEntry_of_ne v h rest]

/-- A finite map: entries with strictly increasing keys. -/
structure OrderedMap (κ ν : Type) [Ord κ] where
  /-- The entries, by increasing key. -/
  entries : List (κ × ν)
  increasing : KeysIncrease entries

namespace OrderedMap

variable [Ord κ]

instance [DecidableEq κ] [DecidableEq ν] : DecidableEq (OrderedMap κ ν) := fun m n =>
  decidable_of_iff (m.entries = n.entries) (by cases m; cases n; simp)

/-- The map without entries. -/
def empty : OrderedMap κ ν := ⟨[], .nil⟩

instance : EmptyCollection (OrderedMap κ ν) := ⟨empty⟩

instance : Inhabited (OrderedMap κ ν) := ⟨empty⟩

/-- The number of entries. -/
def size (m : OrderedMap κ ν) : Nat := m.entries.length

def isEmpty (m : OrderedMap κ ν) : Bool := m.entries.isEmpty

/-- The value stored under `k`. -/
def lookup (m : OrderedMap κ ν) (k : κ) : Option ν := lookupEntry k m.entries

/-- The keys, in increasing order. -/
def keys (m : OrderedMap κ ν) : List κ := m.entries.map (·.1)

/-- The values, by increasing key. -/
def values (m : OrderedMap κ ν) : List ν := m.entries.map (·.2)

/-- The entry with the least key. -/
def first? (m : OrderedMap κ ν) : Option (κ × ν) := m.entries.head?

/-- The entries whose key and value satisfy `p`. -/
def filter (p : κ → ν → Bool) (m : OrderedMap κ ν) : OrderedMap κ ν :=
  ⟨m.entries.filter fun e => p e.1 e.2, m.increasing.filter _⟩

variable [Std.TransOrd κ]

/-- Stores `v` under `k`, in place of any value that was there. -/
def insert (m : OrderedMap κ ν) (k : κ) (v : ν) : OrderedMap κ ν :=
  ⟨insertEntry k v m.entries, m.increasing.insertEntry k v⟩

/-- Stores the entries of a list one after the other, so that the last of equal keys wins. -/
def insertAll (m : OrderedMap κ ν) (entries : List (κ × ν)) : OrderedMap κ ν :=
  entries.foldl (fun m e => m.insert e.1 e.2) m

/-- The map of a list of entries in any order; the last of equal keys wins. -/
def ofList (entries : List (κ × ν)) : OrderedMap κ ν := empty.insertAll entries

/-- What the value under `k` becomes, `f` being given the value that is there. -/
def alter (m : OrderedMap κ ν) (k : κ) (f : Option ν → ν) : OrderedMap κ ν :=
  m.insert k (f (m.lookup k))

theorem lookup_insert_self (m : OrderedMap κ ν) (k : κ) (v : ν) :
    (m.insert k v).lookup k = some v := lookupEntry_insertEntry_self k v m.entries

theorem lookup_insert_of_ne (m : OrderedMap κ ν) {k k' : κ} (v : ν) (h : compare k' k ≠ .eq) :
    (m.insert k v).lookup k' = m.lookup k' := lookupEntry_insertEntry_of_ne v h m.entries

end OrderedMap

end TraceMining
