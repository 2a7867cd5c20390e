import Mathlib

/-!
# The chunk cache of dedup

The table of `hashtable.c` without dynamic expansion: an array of buckets, each a linked
list of entries. Insertion puts an entry at the head of its bucket and does not look for
another entry of the same key; search returns the first entry whose hash and key match.
-/

namespace P3arsec.Dedup

/-- `struct hash_entry`; its link is the position in the bucket. -/
structure HashEntry (κ ν : Type) where
  /-- Key. -/
  k : κ
  /-- Value. -/
  v : ν
  /-- Hash of the key. -/
  h : UInt32

/-- `struct hashtable`. -/
structure HashTable (κ ν : Type) where
  /-- Number of buckets. -/
  tablelength : UInt32
  /-- The buckets. -/
  table : UInt32 → List (HashEntry κ ν)
  /-- Hash function of the keys. -/
  hashfn : κ → UInt32

namespace HashTable

variable {κ ν : Type} [DecidableEq κ]

/-- `hashtable_create` with a number of buckets. -/
def create (tablelength : UInt32) (hashfn : κ → UInt32) : HashTable κ ν :=
  ⟨tablelength, fun _ => [], hashfn⟩

/-- `hash`: the hash function of the keys, with its bits mixed. -/
def hash (cache : HashTable κ ν) (k : κ) : UInt32 :=
  let i := cache.hashfn k
  let i := i + ~~~(i <<< 9)
  let i := i ^^^ ((i >>> 14) ||| (i <<< 18))
  let i := i + (i <<< 4)
  i ^^^ ((i >>> 10) ||| (i <<< 22))

/-- `indexFor`. -/
def indexFor (tablelength hashvalue : UInt32) : UInt32 := hashvalue % tablelength

/-- `hashtable_insert`. -/
def insert (cache : HashTable κ ν) (k : κ) (v : ν) : HashTable κ ν :=
  let e : HashEntry κ ν := ⟨k, v, cache.hash k⟩
  let index := indexFor cache.tablelength e.h
  { cache with table := Function.update cache.table index (e :: cache.table index) }

/-- `hashtable_search`. -/
def search (cache : HashTable κ ν) (k : κ) : Option ν :=
  let hashvalue := cache.hash k
  let index := indexFor cache.tablelength hashvalue
  ((cache.table index).find? fun e => hashvalue = e.h ∧ k = e.k).map HashEntry.v

omit [DecidableEq κ] in
/-- The hash of a key does not depend on the entries. -/
theorem hash_insert (cache : HashTable κ ν) (k : κ) (v : ν) (other : κ) :
    (cache.insert k v).hash other = cache.hash other := rfl

/-- An empty table finds nothing. -/
@[simp] theorem search_create (tablelength : UInt32) (hashfn : κ → UInt32) (k : κ) :
    (create tablelength hashfn : HashTable κ ν).search k = none := rfl

/-- An insertion changes what is found for its own key only. -/
theorem search_insert (cache : HashTable κ ν) (k : κ) (v : ν) (other : κ) :
    (cache.insert k v).search other = if other = k then some v else cache.search other := by
  unfold search
  rw [hash_insert]
  by_cases bucket : indexFor cache.tablelength (cache.hash other) =
      indexFor cache.tablelength (cache.hash k)
  · by_cases same : other = k
    · subst same
      simp [insert]
    · simp [insert, bucket, same]
  · have distinct : other ≠ k := by
      intro same
      rw [same] at bucket
      exact bucket rfl
    simp [insert, bucket, distinct]

end HashTable

end P3arsec.Dedup
