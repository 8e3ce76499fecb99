import CosmoRT.Abi
import CosmoRT.Lib.LinkedList

/-!
# The block cache: `fs/bcache.c`

One cache instance with its backend.  The entries are numbered; a pointer to an entry is its
number.  The contents of a block are of any type.  The backend is a map from block numbers to
contents whose reads and writes succeed, except that `bcache_get_inst` may be told that its read
failed.  Every call holds the lock while it changes the lists, so calls are taken one after the
other.
-/

namespace CosmoRT.Fs

open Lib Function

variable {δ : Type*}

/-- `BCACHE_INVALID`. -/
def bcacheInvalid : ℕ := 2 ^ 64 - 1

/-- `struct bcache_inst`, its entries and the blocks of its backend. -/
structure Bcache (δ : Type*) where
  size : ℕ
  hashBuckets : ℕ
  blockNr : ℕ → ℕ
  data : ℕ → δ
  dirty : ℕ → Bool
  refcount : ℕ → ℤ
  hash : Chains ℕ
  lru : Links ℕ
  disk : ℕ → δ
  /-- whether there is a `bulk_read` -/
  bulkRead : Bool
  /-- what `bulk_max` returns, if there is one -/
  bulkMax : Option ℕ

namespace Bcache

/-! ## Hash and LRU -/

section

variable (c : Bcache δ)

/-- `bcache_hash_fn`. -/
def hashFn (b : ℕ) : ℕ := b * 2654435761 % 2 ^ 32 &&& (c.hashBuckets - 1)

section

variable (e : ℕ)

/-- `lru_remove`. -/
def lruRemove : Bcache δ := { c with lru := c.lru.remove e }

/-- `lru_push_front`. -/
def lruPushFront : Bcache δ := { c with lru := c.lru.pushFront e }

/-- `hash_insert`, at the front of the chain. -/
def hashInsert : Bcache δ :=
  { c with hash := c.hash.push (c.hashFn (c.blockNr e)) e }

/-- `hash_remove`. -/
def hashRemove : Bcache δ :=
  { c with hash := c.hash.unlink e c.size (.bucket (c.hashFn (c.blockNr e))) }

/-- `hash_find`. -/
def hashFind (b : ℕ) : Option ℕ :=
  c.hash.search (fun e => c.blockNr e = b) c.size (c.hash.first (c.hashFn b))

/-- Entry `e` is for block `b`. -/
def setBlock (e b : ℕ) : Bcache δ :=
  { c with blockNr := update c.blockNr e b }

/-- `refcount = n`. -/
def setRefcount (n : ℤ) : Bcache δ :=
  { c with refcount := update c.refcount e n }

/-- `dirty = v`. -/
def setDirty (v : Bool) : Bcache δ :=
  { c with dirty := update c.dirty e v }

/-- The contents of the entry are replaced. -/
def setData (d : δ) : Bcache δ :=
  { c with data := update c.data e d }

/-- An entry of a valid block is written to the backend if it is dirty. -/
def writeBack : Bcache δ :=
  if c.dirty e ∧ c.blockNr e ≠ bcacheInvalid then
    { c with disk := update c.disk (c.blockNr e) (c.data e) }.setDirty e false
  else c

/-! ## The calls -/

/-- `evict_one`: the entry and what the cache is then. -/
def evictOne : Option ℕ × Bcache δ :=
  match c.lru.searchBack (fun e => c.refcount e = 0) c.size c.lru.tail with
  | none => (none, c)
  | some e =>
    let c := c.writeBack e
    let c := if c.blockNr e ≠ bcacheInvalid then c.hashRemove e else c
    let c := c.lruRemove e
    (some e, c.setBlock e bcacheInvalid)

/-- An evicted entry gets a block and goes into the lists. -/
def install (e b : ℕ) (n : ℤ) : Bcache δ :=
  let c := ((c.setBlock e b).setDirty e false).setRefcount e n
  (c.hashInsert e).lruPushFront e

/-- `bcache_get_inst`; `readOk` is whether the backend's read succeeds. -/
def get (b : ℕ) (readOk : Bool) : Option ℕ × Bcache δ :=
  match c.hashFind b with
  | some e =>
    let c := c.setRefcount e (int32 (c.refcount e + 1))
    (some e, (c.lruRemove e).lruPushFront e)
  | none =>
    match c.evictOne with
    | (none, c) => (none, c)
    | (some e, c) =>
      let c := c.install e b 1
      if readOk then (some e, c.setData e (c.disk b))
      else
        let c := (c.hashRemove e).lruRemove e
        let c := (c.setBlock e bcacheInvalid).setRefcount e 0
        (none, c.lruPushFront e)

/-- `bcache_put_inst`. -/
def put : Bcache δ :=
  if c.refcount e > 0 then c.setRefcount e (c.refcount e - 1) else c

/-- `bcache_mark_dirty_inst`. -/
def markDirty : Bcache δ := c.setDirty e true

end

/-- `bcache_sync_inst`. -/
def sync : Bcache δ := (List.range c.size).foldl writeBack c

/-- `bcache_write_block_inst`, and whether it succeeded. -/
def writeBlock (b : ℕ) (d : δ) : Bool × Bcache δ :=
  match c.get b true with
  | (none, c) => (false, c)
  | (some e, c) => (true, ((c.setData e d).markDirty e).put e)

/-! ## Read-ahead -/

/-- `while (i < count && hash_find(bc, start + i)) i++`; `n` blocks are left. -/
def skipCached (c : Bcache δ) (start : ℕ) : ℕ → ℕ → ℕ
  | 0, i => i
  | n + 1, i =>
    if (c.hashFind ((start + i) % 2 ^ 64)).isSome then skipCached c start n (i + 1) else i

/-- The blocks from `start + i` on that are not cached, at most `n`. -/
def runLength (c : Bcache δ) (start : ℕ) : ℕ → ℕ → ℕ
  | 0, _ => 0
  | n + 1, i =>
    if (c.hashFind ((start + i) % 2 ^ 64)).isSome then 0 else runLength c start n (i + 1) + 1

/-- The fall-back: block by block. -/
def fetchEach (c : Bcache δ) : List ℕ → Bcache δ
  | [] => c
  | b :: bs =>
    match c.get b true with
    | (none, c) => fetchEach c bs
    | (some e, c) => fetchEach (c.put e) bs

/-- The blocks of the landing buffer are put into the cache. -/
def dispatch (c : Bcache δ) : List (ℕ × δ) → Bcache δ
  | [] => c
  | (b, d) :: bs =>
    if (c.hashFind b).isSome then dispatch c bs
    else
      match c.evictOne with
      | (none, c) => c
      | (some e, c) => dispatch ((c.install e b 0).setData e d) bs

/-- The loop of `bcache_readahead_inst`. -/
def readaheadLoop (c : Bcache δ) (start count bmax : ℕ) : ℕ → ℕ → Bcache δ
  | 0, _ => c
  | fuel + 1, i =>
    if i < count then
      let i := c.skipCached start (count - i) i
      if i ≥ count then c
      else
        let run := c.runLength start (min (count - i) bmax) i
        if run = 0 then readaheadLoop c start count bmax fuel (i + 1)
        else
          let blocks := (List.range run).map fun k => (start + i + k) % 2 ^ 64
          let c :=
            if c.bulkRead then c.dispatch (blocks.map fun b => (b, c.disk b))
            else c.fetchEach blocks
          readaheadLoop c start count bmax fuel (i + run)
    else c

/-- `bcache_readahead_inst`. -/
def readahead (start count : ℕ) : Bcache δ :=
  if count = 0 then c
  else
    let bmax := c.bulkMax.getD 1
    let bmax := if bmax = 0 then 1 else bmax
    let bmax := if bmax > 16 then 16 else bmax
    c.readaheadLoop start count bmax count 0

end

/-- `inst_init_internal`, for the given backend; the pages of the entries hold what they hold. -/
def init (size hashBuckets : ℕ) (disk : ℕ → δ) (pages : ℕ → δ) (bulkRead : Bool)
    (bulkMax : Option ℕ) : Bcache δ where
  size := size
  hashBuckets := hashBuckets
  blockNr := fun _ => bcacheInvalid
  data := pages
  dirty := fun _ => false
  refcount := fun _ => 0
  hash := ⟨fun _ => none, fun _ => none⟩
  lru := (List.range size).foldl Links.pushFront ⟨fun _ => none, fun _ => none, none⟩
  disk := disk
  bulkRead := bulkRead
  bulkMax := bulkMax

end Bcache

end CosmoRT.Fs
