import OxiSql.Storage.PageHashMap
import OxiSql.Lib.LinkedList

namespace OxiSql.Storage
open Lib

inductive CacheError where
  | internalError (message : String)
  | locked
  | dirty
  | activeRefs
  | full
  | keyExists
  | keyExistsContentMismatch
deriving DecidableEq

inductive CacheResizeResult where
  | done
  | pendingEvictions
deriving DecidableEq

/-- What the cache reads and writes of a page. -/
structure PageFlags where
  locked : Bool
  dirty : Bool
  loaded : Bool
  hasContents : Bool
deriving DecidableEq

/-- An entry, without its links; a page is known by its reference. -/
structure PageCacheEntry where
  key : Nat
  page : Nat
deriving DecidableEq

/-- Entries are at addresses that are counted up and not used again. -/
structure DumbLruPageCache where
  capacity : Nat
  map : PageHashMap
  list : LinkedList PageCacheEntry
  pages : Nat → PageFlags
  allocs : Nat

namespace DumbLruPageCache

def new (capacity : Nat) (pages : Nat → PageFlags) : DumbLruPageCache :=
  ⟨capacity, .new capacity, .empty, pages, 0⟩

def len (c : DumbLruPageCache) : Nat :=
  c.map.size

/-- `get` of the map. With no buckets there is no bucket to look in, and the source panics. -/
def lookup (c : DumbLruPageCache) (key : Nat) : Option (Option Nat) :=
  if c.map.capacity = 0 then none else some (c.map.get key)

def unlink (c : DumbLruPageCache) (entry : Nat) : Option DumbLruPageCache :=
  (c.list.unlink entry).map fun list => { c with list }

def touch (c : DumbLruPageCache) (entry : Nat) : Option DumbLruPageCache :=
  (c.list.pushFront entry).map fun list => { c with list }

/-- `clear_loaded`, and the contents are dropped. -/
def cleanPage (c : DumbLruPageCache) (page : Nat) : DumbLruPageCache :=
  let flags := { c.pages page with loaded := false, hasContents := false }
  { c with pages := Function.update c.pages page flags }

def detach (c : DumbLruPageCache) (entry : Nat) (clean : Bool) :
    Option (Except CacheError Unit × DumbLruPageCache) := do
  let node ← c.list.heap entry
  if (c.pages node.data.page).locked then some (.error .locked, c)
  else if (c.pages node.data.page).dirty then some (.error .dirty, c)
  else
    let c := if clean then c.cleanPage node.data.page else c
    let c ← c.unlink entry
    some (.ok (), c)

def freeEntry (c : DumbLruPageCache) (entry : Nat) : DumbLruPageCache :=
  { c with list := c.list.free entry }

/-- `delete`, which succeeds on a key that is not there. -/
def delete (c : DumbLruPageCache) (key : Nat) : Option (Except CacheError Unit × DumbLruPageCache) := do
  match ← c.lookup key with
  | none => some (.ok (), c)
  | some entry =>
    match ← c.detach entry true with
    | (.error e, c) => some (.error e, c)
    | (.ok (), c) =>
      match c.map.remove key with
      | (some entry, map) => some (.ok (), { c with map }.freeEntry entry)
      | (none, map) => some (.ok (), { c with map })

def peek (c : DumbLruPageCache) (key : Nat) (touched : Bool) : Option (Option Nat × DumbLruPageCache) := do
  match ← c.lookup key with
  | none => some (none, c)
  | some entry =>
    let node ← c.list.heap entry
    if touched then
      let c ← c.unlink entry
      let c ← c.touch entry
      some (some node.data.page, c)
    else some (some node.data.page, c)

/-- The loop of `make_room_for`, from an entry towards the head: how many are still to go. A loop
that takes more rounds than there are addresses does not end. -/
def evictFrom : Nat → Nat → Option Nat → DumbLruPageCache → Option (Nat × DumbLruPageCache)
  | _, 0, _, c => some (0, c)
  | _, need, none, c => some (need, c)
  | 0, _, some _, _ => none
  | fuel + 1, need + 1, some entry, c => do
    let node ← c.list.heap entry
    match ← c.delete node.data.key with
    | (.error _, c) => evictFrom fuel (need + 1) node.prev c
    | (.ok (), c) => evictFrom fuel need node.prev c

def needToEvict (c : DumbLruPageCache) (n : Nat) : Nat :=
  n - (c.capacity - c.len) + (c.len - c.capacity)

def makeRoomFor (c : DumbLruPageCache) (n : Nat) : Option (Except CacheError Unit × DumbLruPageCache) :=
  if c.capacity < n then some (.error .full, c)
  else if n ≤ c.capacity - c.len ∧ c.len ≤ c.capacity then some (.ok (), c)
  else
    match c.list.tail with
    | none =>
      some (.error (.internalError
        s!"Page cache of len {c.len} expected to have a tail pointer"), c)
    | some tail => do
      let (need, c) ← evictFrom c.allocs (c.needToEvict n) (some tail) c
      some (if 0 < need then .error .full else .ok (), c)

/-- The end of `_insert`, when there is room. -/
def addEntry (c : DumbLruPageCache) (key page : Nat) : Option DumbLruPageCache := do
  let entry := c.allocs
  let heap : Heap PageCacheEntry :=
    Function.update c.list.heap entry (some ⟨⟨key, page⟩, none, none⟩)
  let c := { c with list := { c.list with heap }, allocs := c.allocs + 1 }
  let c ← c.touch entry
  if c.map.capacity = 0 then none else some { c with map := (c.map.insert key entry).2 }

def insertWith (c : DumbLruPageCache) (key page : Nat) (ignoreExists : Bool) :
    Option (Except CacheError Unit × DumbLruPageCache) := do
  let (found, c) ← if ignoreExists then some (none, c) else c.peek key true
  match found with
  | some existing => some (.error (if page ≠ existing then .keyExistsContentMismatch else .keyExists), c)
  | none =>
    match ← c.makeRoomFor 1 with
    | (.error e, c) => some (.error e, c)
    | (.ok (), c) =>
      let c ← c.addEntry key page
      some (.ok (), c)

def resize (c : DumbLruPageCache) (capacity : Nat) : Option (CacheResizeResult × DumbLruPageCache) :=
  if capacity = 0 ∧ c.map.nodes ≠ [] then none
  else do
    match ← { c with map := c.map.rehash capacity, capacity }.makeRoomFor 0 with
    | (.ok (), c) => some (.done, c)
    | (.error _, c) => some (.pendingEvictions, c)

/-- The loop of `clear`. The key is out of the map before the page is looked at. -/
def clearFrom : Nat → Option Nat → DumbLruPageCache → Option (Except CacheError Unit × DumbLruPageCache)
  | _, none, c => some (.ok (), c)
  | 0, some _, _ => none
  | fuel + 1, some entry, c => do
    let node ← c.list.heap entry
    if c.map.capacity = 0 then none
    else
      match ← { c with map := (c.map.remove node.data.key).2 }.detach entry true with
      | (.error e, c) => some (.error e, c)
      | (.ok (), c) => clearFrom fuel node.next (c.freeEntry entry)

def clear (c : DumbLruPageCache) : Option (Except CacheError Unit × DumbLruPageCache) := do
  match ← clearFrom c.allocs c.list.head c with
  | (.error e, c) => some (.error e, c)
  | (.ok (), c) =>
    if c.map.size = 0 then some (.ok (), { c with list := { c.list with head := none, tail := none } })
    else none

/-- A call. `setFlags` is what the owners of pages do to them. -/
inductive Call where
  | insert (key page : Nat)
  | insertIgnoreExisting (key page : Nat)
  | peek (key : Nat) (touched : Bool)
  | delete (key : Nat)
  | makeRoomFor (n : Nat)
  | resize (capacity : Nat)
  | clear
  | setFlags (pages : Nat → PageFlags)

inductive Reply where
  | result (r : Except CacheError Unit)
  | found (page : Option Nat)
  | resized (r : CacheResizeResult)

/-- `none` is a panic or an access to freed memory. -/
def step (c : DumbLruPageCache) : Call → Option (Reply × DumbLruPageCache)
  | .insert key page => (c.insertWith key page false).map fun (r, c) => (.result r, c)
  | .insertIgnoreExisting key page => (c.insertWith key page true).map fun (r, c) => (.result r, c)
  | .peek key touched => (c.peek key touched).map fun (r, c) => (.found r, c)
  | .delete key => (c.delete key).map fun (r, c) => (.result r, c)
  | .makeRoomFor n => (c.makeRoomFor n).map fun (r, c) => (.result r, c)
  | .resize capacity => (c.resize capacity).map fun (r, c) => (.resized r, c)
  | .clear => c.clear.map fun (r, c) => (.result r, c)
  | .setFlags pages => some (.result (.ok ()), { c with pages })

end DumbLruPageCache

end OxiSql.Storage
