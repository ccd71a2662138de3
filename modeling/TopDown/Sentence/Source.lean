namespace TopDown

/-- A state from which one of `n + 1` indices can be picked. -/
class Chooser (σ : Type) where
  pick : (n : Nat) → σ → Fin (n + 1) × σ

/-- The rest of the script, the state of the generator behind it, and the words drawn so far. -/
structure Source where
  script : List UInt64
  state : UInt64
  drawn : Nat
deriving Repr

namespace Source

def ofSeed (seed : UInt64) (script : List UInt64) : Source := ⟨script, seed, 0⟩

def mix (state : UInt64) : UInt64 :=
  let a := (state ^^^ (state >>> 30)) * 0xBF58476D1CE4E5B9
  let b := (a ^^^ (a >>> 27)) * 0x94D049BB133111EB
  b ^^^ (b >>> 31)

def increment : UInt64 := 0x9E3779B97F4A7C15

def next (s : Source) : UInt64 × Source :=
  match s.script with
  | word :: script => (word, ⟨script, s.state, s.drawn + 1⟩)
  | [] =>
    let state := s.state + increment
    (mix state, ⟨[], state, s.drawn + 1⟩)

/-- The last place of the zone for `n` indices, where `n` is shifted up to the full width. -/
def zone (n : Nat) : Nat := n <<< (63 - n.log2) - 1

/-- The product of a word and `n + 1` has the index in its high half; it counts if its low half lies
in the zone. -/
def pickWithin (n : Nat) : (fuel : Nat) → Source → Fin (n + 1) × Source
  | fuel, s =>
    let (word, s) := s.next
    let product := word.toNat * (n + 1)
    have index_lt : product / UInt64.size < n + 1 :=
      Nat.div_lt_of_lt_mul (Nat.mul_lt_mul_of_pos_right word.toNat_lt (Nat.succ_pos n))
    if product % UInt64.size ≤ zone (n + 1) then (⟨product / UInt64.size, index_lt⟩, s)
    else
      match fuel with
      | 0 => (⟨product / UInt64.size, index_lt⟩, s)
      | fuel + 1 => pickWithin n fuel s

/-- The generator goes through every word before it repeats, and the word zero always counts. So
the fuel does not run out. -/
instance : Chooser Source where
  pick n s := pickWithin n (s.script.length + UInt64.size) s

end Source

end TopDown
