import TreeQuery.Memory
import TreeQuery.Path.Checked
import TreeQuery.Query.Basic

/-!
# A bounded memory of read paths

The cache keeps what reading path texts gave in a bounded memory. A text that is there is not read
again, which counts as a use of it; a new one is recorded as a miss, read and kept. Texts that are no
paths leave no trace except in the record and in the count of readings.
-/

namespace TreeQuery

/-- A path that is ready for use. Two of them are the same object when one reading made both;
a path that was not read from a text has no reading. -/
structure Compiled where
  expression : Expression
  reading : Option Nat
  deriving DecidableEq

namespace Compiled

/-- A path that was handed in ready-made. -/
def given (e : Expression) : Compiled := ⟨e, none⟩

def same (a b : Compiled) : Bool := a.reading.isSome && a.reading = b.reading

end Compiled

structure Cache (m : Memory Compiled := .recent Compiled) where
  mode : Mode
  capacity : Nat
  memory : m.State capacity
  /-- How often a text was read, in vain or not. -/
  readings : Nat
  capacity_pos : 0 < capacity

/-- A cache with the record of what happens. -/
structure Desk (m : Memory Compiled := .recent Compiled) where
  cache : Cache m
  log : Array Event

namespace Cache

variable {m : Memory Compiled}

def defaultCapacity : Nat := 256

def empty (mode : Mode) (capacity : Nat) (h : 0 < capacity) : Cache m :=
  ⟨mode, capacity, m.empty capacity, 0, h⟩

/-- An empty cache whose capacity is given by a value. -/
def ofValue (mode : Mode) : Value → Except ArgumentError (Cache m)
  | .scalar (.int (.ofNat (n + 1))) => .ok (empty mode (n + 1) (Nat.succ_pos n))
  | .scalar (.int got) => .error (.capacityTooSmall got)
  | got => .error (.capacityNotInteger got)

variable (c : Cache m)

def size : Nat := m.size c.memory

def contains (text : String) : Bool := m.contains c.memory text

/-- Whether a value is a text in the cache. -/
def containsValue (v : Value) : Except Refusal Bool := do
  match ← v.asName with
  | some text => return c.contains text
  | none => return false

/-- Forgets all texts. -/
def clear : Cache m := { c with memory := m.clear c.memory }

/-- Counts a reading that gave nothing to keep. -/
def countReading : Cache m := { c with readings := c.readings + 1 }

/-- Reads a text and keeps what it denotes. -/
def readAndKeep (text : String) : Except Malformed Compiled × Cache m :=
  match Expression.read c.mode text with
  | .error cause => (.error cause, c.countReading)
  | .ok e =>
    let path : Compiled := ⟨e, some c.readings⟩
    (.ok path, { c.countReading with memory := m.keep c.memory text path })

/-- The path of a text, read only if it is not in the cache. -/
def compile (text : String) : Effect Malformed (Desk m) Compiled := fun desk =>
  let (known, memory) := m.fetch desk.cache.memory text
  let cache := { desk.cache with memory }
  match known with
  | some path => (.ok path, { desk with cache })
  | none =>
    let (outcome, cache) := cache.readAndKeep text
    (outcome, ⟨cache, desk.log.push (.cacheMiss (.text text))⟩)

end Cache

end TreeQuery
