/-!
Finite maps. A `Table` lists its entries in the order in which their keys first came; a `Dict` has text
keys and lists its entries in increasing order of them, so that equal contents are equal values.
-/
namespace ChanFlow

structure Table (κ β : Type) where
  entries : List (κ × β) := []
deriving DecidableEq, Repr

namespace Table

variable {κ β : Type} [DecidableEq κ]

/-- The first value listed for a key. -/
def find (k : κ) : List (κ × β) → Option β
  | [] => none
  | e :: rest => if e.1 = k then some e.2 else find k rest

def get? (t : Table κ β) (k : κ) : Option β := find k t.entries

def put (k : κ) (v : β) : List (κ × β) → List (κ × β)
  | [] => [(k, v)]
  | e :: rest => if e.1 = k then (k, v) :: rest else e :: put k v rest

/-- The value of a key is set; a key that is there already keeps its place. -/
def insert (t : Table κ β) (k : κ) (v : β) : Table κ β := ⟨put k v t.entries⟩

def values (t : Table κ β) : List β := t.entries.map (·.2)

theorem find_put (k k' : κ) (v : β) (es : List (κ × β)) :
    find k' (put k v es) = if k = k' then some v else find k' es := by
  induction es with
  | nil => rfl
  | cons e rest ih =>
    by_cases h : e.1 = k
    · by_cases hk : k = k' <;> simp [put, find, h, hk]
    · rw [put, if_neg h, find, find, ih]
      by_cases hk : e.1 = k'
      · rw [if_pos hk, if_pos hk, if_neg fun h' => h (hk.trans h'.symm)]
      · rw [if_neg hk, if_neg hk]

@[simp] theorem get?_insert (t : Table κ β) (k k' : κ) (v : β) :
    (t.insert k v).get? k' = if k = k' then some v else t.get? k' :=
  find_put k k' v t.entries

theorem mem_of_find {k : κ} {v : β} {es : List (κ × β)} (found : find k es = some v) : (k, v) ∈ es := by
  induction es with
  | nil => exact nomatch found
  | cons e rest ih =>
    rw [find] at found
    split at found
    · next same =>
      cases found
      cases same
      exact List.mem_cons_self
    · exact List.mem_cons_of_mem _ (ih found)

theorem mem_put {k : κ} {v : β} {es : List (κ × β)} {e : κ × β} (member : e ∈ put k v es) :
    e = (k, v) ∨ e ∈ es := by
  induction es with
  | nil => exact .inl (List.mem_singleton.1 member)
  | cons a rest ih =>
    rw [put] at member
    split at member
    · exact (List.mem_cons.1 member).imp id (List.mem_cons_of_mem _)
    · rcases List.mem_cons.1 member with rfl | later
      · exact .inr List.mem_cons_self
      · exact (ih later).imp id (List.mem_cons_of_mem _)

end Table

def ascendingKeys {β : Type} (es : List (String × β)) : Prop := es.Pairwise fun a b => a.1 < b.1

structure Dict (β : Type) where
  entries : List (String × β) := []
  ascending : ascendingKeys entries := by exact List.Pairwise.nil

namespace Dict

variable {β : Type}

def empty : Dict β := {}

def get? (d : Dict β) (k : String) : Option β := Table.find k d.entries

def size (d : Dict β) : Nat := d.entries.length

def put (k : String) (v : β) : List (String × β) → List (String × β)
  | [] => [(k, v)]
  | e :: rest =>
    if k < e.1 then (k, v) :: e :: rest
    else if k = e.1 then (k, v) :: rest
    else e :: put k v rest

theorem mem_put {k : String} {v : β} {es : List (String × β)} {e : String × β}
    (h : e ∈ put k v es) : e = (k, v) ∨ e ∈ es := by
  induction es with
  | nil => simpa [put] using h
  | cons a rest ih =>
    simp only [put] at h
    split at h
    · simpa using h
    · split at h
      · rcases List.mem_cons.1 h with h | h
        · exact .inl h
        · exact .inr (List.mem_cons_of_mem _ h)
      · rcases List.mem_cons.1 h with h | h
        · exact .inr (h ▸ List.mem_cons_self)
        · exact (ih h).imp id (List.mem_cons_of_mem _)

theorem ascendingKeys_put (k : String) (v : β) {es : List (String × β)} (h : ascendingKeys es) :
    ascendingKeys (put k v es) := by
  induction es with
  | nil => exact List.pairwise_singleton _ _
  | cons a rest ih =>
    obtain ⟨first, tail⟩ := List.pairwise_cons.1 h
    simp only [put]
    split
    · next lt =>
      refine List.pairwise_cons.2 ⟨fun e he => ?_, h⟩
      rcases List.mem_cons.1 he with rfl | he
      · exact lt
      · exact String.lt_trans lt (first e he)
    · next notLt =>
      split
      · next eq =>
        exact List.pairwise_cons.2 ⟨fun e he => by rw [eq]; exact first e he, tail⟩
      · next ne =>
        refine List.pairwise_cons.2 ⟨fun e he => ?_, ih tail⟩
        rcases mem_put he with rfl | he
        · exact Decidable.byContradiction fun h' =>
            ne (Std.Trichotomous.trichotomous (r := (· < · : String → String → Prop)) _ _ notLt h')
        · exact first e he

def insert (d : Dict β) (k : String) (v : β) : Dict β :=
  ⟨put k v d.entries, ascendingKeys_put k v d.ascending⟩

def ofList (es : List (String × β)) : Dict β := es.foldl (fun d e => d.insert e.1 e.2) {}

end Dict

end ChanFlow
