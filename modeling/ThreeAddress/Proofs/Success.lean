/-!
# Success of composed computations, the greatest value of a fold, and lists without repetitions
-/

namespace ThreeAddress

variable {ε α β : Type}

theorem bind_ok {x : Except ε α} {f : α → Except ε β} {b : β} :
    x >>= f = .ok b ↔ ∃ a, x = .ok a ∧ f a = .ok b := by
  cases x <;> simp [bind, Except.bind]

theorem le_foldl_max {f : α → Nat} {list : List α} {start bound : Nat} :
    bound ≤ list.foldl (fun most value => max most (f value)) start ↔
      bound ≤ start ∨ ∃ value ∈ list, bound ≤ f value := by
  induction list generalizing start with
  | nil => simp
  | cons first rest ih =>
    have hmax : bound ≤ max start (f first) ↔ bound ≤ start ∨ bound ≤ f first := by omega
    rw [List.foldl_cons, ih, hmax, or_assoc]
    simp

theorem eraseDups_snoc (names : List String) (name : String) :
    (names ++ [name]).eraseDups
      = if name ∈ names then names.eraseDups else names.eraseDups ++ [name] := by
  rw [List.eraseDups_append]
  split
  · next known => simp [List.removeAll, known]
  · next unknown => simp [List.removeAll, unknown, List.eraseDups_cons]

end ThreeAddress
