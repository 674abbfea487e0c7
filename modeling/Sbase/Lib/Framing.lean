import Mathlib.Tactic

/-! Streams cut into frames: the symbols at hand say when a frame is complete, and what follows it
may depend on the frame. A receiver that takes the symbols in pieces tracks the parse of the whole
stream. -/
namespace Framing

variable {μ α φ : Type*}

/-- The rule that cuts a stream: in a mode, the frame at the front of the symbols at hand, the next
mode and the number of symbols taken. Symbols behind a complete frame do not change it. -/
structure Deframer (μ α φ : Type*) where
  next : μ → List α → Option (φ × μ × ℕ)
  taken : ∀ {m xs f m' n}, next m xs = some (f,m',n) → 0 < n ∧ n ≤ xs.length
  stable : ∀ {m xs r}, next m xs = some r → ∀ ys, next m (xs ++ ys) = some r

namespace Deframer

variable (d : Deframer μ α φ)

def parseWith : ℕ → μ → List α → List φ
  | 0, _, _ => []
  | fuel+1, m, xs =>
    match d.next m xs with
    | some (f,m',n) => f :: parseWith fuel m' (xs.drop n)
    | none => []

/-- The frames of a stream, parsed in one piece. -/
def parse (m : μ) (xs : List α) : List φ := d.parseWith xs.length m xs

variable {d} {m m' m₀ : μ} {f : φ} {n : ℕ} {xs ys received rest : List α} {done : List φ}

theorem parseWith_of_none (h : d.next m xs = none) (fuel : ℕ) : d.parseWith fuel m xs = [] := by
  cases fuel with
  | zero => rfl
  | succ fuel => rw [parseWith, h]

theorem parseWith_of_some (h : d.next m xs = some (f,m',n)) (fuel : ℕ) :
    d.parseWith (fuel+1) m xs = f :: d.parseWith fuel m' (xs.drop n) := by
  rw [parseWith, h]

/-- Fuel beyond the length of the stream changes nothing. -/
theorem parseWith_eq_parse {fuel : ℕ} (h : xs.length ≤ fuel) :
    d.parseWith fuel m xs = d.parse m xs := by
  unfold parse
  induction fuel using Nat.strong_induction_on generalizing m xs with
  | _ fuel ih =>
    cases hn : d.next m xs with
    | none => rw [parseWith_of_none hn, parseWith_of_none hn]
    | some r =>
      obtain ⟨f, m', n⟩ := r
      have htaken := d.taken hn
      obtain ⟨fuel, rfl⟩ : ∃ j, fuel = j+1 := ⟨fuel-1, by omega⟩
      obtain ⟨k, hk⟩ : ∃ k, xs.length = k+1 := ⟨xs.length-1, by omega⟩
      have hdrop : (xs.drop n).length ≤ k := by rw [List.length_drop]; omega
      rw [hk, parseWith_of_some hn, parseWith_of_some hn]
      rw [ih fuel (by omega) (by omega), ih k (by omega) hdrop]

theorem parse_of_none (h : d.next m xs = none) : d.parse m xs = [] := parseWith_of_none h _

theorem parse_of_some (h : d.next m xs = some (f,m',n)) :
    d.parse m xs = f :: d.parse m' (xs.drop n) := by
  have htaken := d.taken h
  obtain ⟨k, hk⟩ : ∃ k, xs.length = k+1 := ⟨xs.length-1, by omega⟩
  have hdrop : (xs.drop n).length ≤ k := by rw [List.length_drop]; omega
  rw [parse, hk, parseWith_of_some h, parseWith_eq_parse hdrop]

variable (d) in
/-- A receiver that has handed over `done` and keeps `rest` for the mode `m` has handed over what
the parse of the stream starts with, and the parse of what it keeps gives the rest. -/
def Tracks (m₀ : μ) (received : List α) (done : List φ) (m : μ) (rest : List α) : Prop :=
  ∀ more, d.parse m₀ (received ++ more) = done ++ d.parse m (rest ++ more)

theorem Tracks.start : d.Tracks m₀ [] [] m₀ [] := fun _ => rfl

/-- More of the stream arrives. -/
theorem Tracks.feed (h : d.Tracks m₀ received done m rest) (bs : List α) :
    d.Tracks m₀ (received ++ bs) done m (rest ++ bs) := by
  intro more
  rw [List.append_assoc, List.append_assoc]
  exact h (bs ++ more)

/-- A frame is handed over. -/
theorem Tracks.hand (h : d.Tracks m₀ received done m rest) (hn : d.next m rest = some (f,m',n)) :
    d.Tracks m₀ received (done ++ [f]) m' (rest.drop n) := by
  intro more
  have htaken := d.taken hn
  rw [h more, parse_of_some (d.stable hn more), List.drop_append_of_le_length htaken.2]
  simp

/-- What is handed over is a prefix of the parse of the whole stream. -/
theorem Tracks.safe (h : d.Tracks m₀ received done m rest) (more : List α) :
    done <+: d.parse m₀ (received ++ more) := by
  rw [h more]
  exact List.prefix_append _ _

/-- When no frame is complete, all that the stream gives so far has been handed over. -/
theorem Tracks.complete (h : d.Tracks m₀ received done m rest) (hn : d.next m rest = none) :
    done = d.parse m₀ received := by
  have hall := h []
  rw [List.append_nil, List.append_nil, parse_of_none hn, List.append_nil] at hall
  exact hall.symm

end Deframer

end Framing
