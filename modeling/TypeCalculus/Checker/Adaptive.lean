/-! A cache of bounded size that adapts between recent and frequent use. Keys seen once lately are kept
    apart from keys seen again, and both sides remember keys that they had to drop; a dropped key that
    comes back shifts the balance towards its side. -/

namespace TypeCalculus

/-- The cache. All lists have the latest entry first. -/
structure Adaptive (κ ν : Type) where
  size : Nat
  /-- How many entries the recent side should have. -/
  target : Nat := 0
  recent : List (κ × ν) := []
  frequent : List (κ × ν) := []
  /-- Keys dropped from the recent side. -/
  recentGhosts : List κ := []
  /-- Keys dropped from the frequent side. -/
  frequentGhosts : List κ := []

namespace Adaptive

variable {κ ν : Type} [BEq κ]

def without (entries : List (κ × ν)) (key : κ) : List (κ × ν) := entries.filter fun e => !(e.1 == key)

/-- Puts an entry first, within a size. -/
def putFirst (size : Nat) (entries : List (κ × ν)) (key : κ) (value : ν) : List (κ × ν) :=
  ((key, value) :: without entries key).take size

/-- Remembers a dropped key, within a size. -/
def remember (size : Nat) (keys : List κ) (key : κ) : List κ :=
  (key :: keys.filter fun k => !(k == key)).take size

/-- Looks a key up and counts it as frequent. -/
def get (c : Adaptive κ ν) (key : κ) : Option ν × Adaptive κ ν :=
  match c.recent.lookup key with
  | some v =>
    (some v, { c with
      recent := without c.recent key
      frequent := putFirst c.size c.frequent key v })
  | none =>
    match c.frequent.lookup key with
    | some v => (some v, { c with frequent := putFirst c.size c.frequent key v })
    | none => (none, c)

/-- Drops the oldest entry of the side that is above its share. -/
def dropOne (c : Adaptive κ ν) (ghostIsFrequent : Bool) : Adaptive κ ν :=
  let n := c.recent.length
  if n > 0 && (n > c.target || (n == c.target && ghostIsFrequent)) then
    match c.recent.getLast? with
    | some (key, _) =>
      { c with
        recent := c.recent.dropLast
        recentGhosts := remember c.size c.recentGhosts key }
    | none => c
  else
    match c.frequent.getLast? with
    | some (key, _) =>
      { c with
        frequent := c.frequent.dropLast
        frequentGhosts := remember c.size c.frequentGhosts key }
    | none => c

/-- Drops an entry if the cache is full. -/
def makeRoom (c : Adaptive κ ν) (ghostIsFrequent : Bool) : Adaptive κ ν :=
  if c.recent.length + c.frequent.length ≥ c.size then c.dropOne ghostIsFrequent else c

/-- By how much a returning key shifts the balance, given the ghosts of its own and of the other side. -/
def shift (own other : Nat) : Nat := if other > own then other / own else 1

/-- Adds an entry, or replaces the entry of the same key. -/
def put (c : Adaptive κ ν) (key : κ) (value : ν) : Adaptive κ ν :=
  let frequently (c : Adaptive κ ν) : Adaptive κ ν :=
    { c with frequent := putFirst c.size c.frequent key value }
  if (c.recent.lookup key).isSome then
    frequently { c with recent := without c.recent key }
  else if (c.frequent.lookup key).isSome then
    frequently c
  else if c.recentGhosts.contains key then
    let delta := shift c.recentGhosts.length c.frequentGhosts.length
    let c := { c with target := min c.size (c.target + delta) }
    let c := c.makeRoom false
    frequently { c with recentGhosts := c.recentGhosts.filter fun k => !(k == key) }
  else if c.frequentGhosts.contains key then
    let delta := shift c.frequentGhosts.length c.recentGhosts.length
    let c := { c with target := c.target - delta }
    let c := c.makeRoom true
    frequently { c with frequentGhosts := c.frequentGhosts.filter fun k => !(k == key) }
  else
    let c := c.makeRoom false
    let c := if c.recentGhosts.length > c.size - c.target then
      { c with recentGhosts := c.recentGhosts.dropLast } else c
    let c := if c.frequentGhosts.length > c.target then
      { c with frequentGhosts := c.frequentGhosts.dropLast } else c
    { c with recent := putFirst c.size c.recent key value }

/-- Forgets all keys; the balance stays. -/
def purge (c : Adaptive κ ν) : Adaptive κ ν :=
  { c with recent := [], frequent := [], recentGhosts := [], frequentGhosts := [] }

end Adaptive

end TypeCalculus
