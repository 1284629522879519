import LoxSyntax.Expr.Room

/-! # How deep an expression can be written

Whether there is room to write an expression depends on its depth alone. With enough room the limited
texts are the texts without a limit, and with less there is none (`Expr.prefixTextWithin_eq`,
`Expr.recordWithin_eq`). -/

namespace LoxSyntax.Expr

variable {α : Type} {cost room d : Nat} {e : Expr} {text : String}

/-- How many nodes are above the deepest leaf. -/
def depth : Expr → Nat
  | grouping inner _ => inner.depth + 1
  | unary _ right => right.depth + 1
  | binary left _ right => max left.depth right.depth + 1
  | literal .. | reference _ | unknown => 0

/-- The value, if there is room for calls of a depth. -/
def reach (cost room depth : Nat) (value : α) : Except TextFault α :=
  if cost * depth ≤ room then .ok value else .error .tooDeep

theorem reach_of_le (h : cost * d ≤ room) (value : α) : reach cost room d value = .ok value :=
  if_pos h

theorem reach_of_lt (h : room < cost * d) (value : α) :
    reach cost room d value = .error .tooDeep :=
  if_neg (Nat.not_le.2 h)

theorem reach_zero (cost room : Nat) (value : α) : reach cost room 0 value = .ok value :=
  reach_of_le (Nat.zero_le _) value

/-- One level more, paid before the rest. -/
theorem within_reach (cost room d : Nat) (value : α) :
    within cost room (fun room => reach cost room d value) = reach cost room (d + 1) value := by
  have hcost : cost * (d + 1) = cost * d + cost := Nat.mul_succ ..
  by_cases hroom : cost * (d + 1) ≤ room
  · have hpaid : cost ≤ room := by omega
    rw [within, if_pos hpaid, reach_of_le (by omega), reach_of_le hroom]
  · rw [reach_of_lt (Nat.lt_of_not_le hroom), within]
    split
    · exact reach_of_lt (by omega) value
    · rfl

theorem map_reach {β : Type} (f : α → β) (value : α) :
    (reach cost room d value).map f = reach cost room d (f value) := by
  simp only [reach]
  split
  · rfl
  · rfl

/-- Two operands are reached if the deeper one is. -/
theorem bind_reach {β γ : Type} (f : α → β → γ) (left right : Nat) (a : α) (b : β) :
    (do
      let x ← reach cost room (left + 1) a
      let y ← reach cost room (right + 1) b
      return f x y) = reach cost room (max left right + 1) (f a b) := by
  have hmax : cost * (max left right + 1) = max (cost * (left + 1)) (cost * (right + 1)) := by
    rw [← Nat.add_max_add_right, Nat.mul_max_mul_left]
  by_cases hroom : cost * (max left right + 1) ≤ room
  · rw [reach_of_le hroom, reach_of_le (by omega), reach_of_le (by omega)]
    rfl
  · rw [reach_of_lt (Nat.lt_of_not_le hroom)]
    by_cases hleft : cost * (left + 1) ≤ room
    · rw [reach_of_le hleft, reach_of_lt (d := right + 1) (by omega)]
      rfl
    · rw [reach_of_lt (d := left + 1) (by omega)]
      rfl

theorem recordWithin_eq (e : Expr) (room : Nat) :
    e.recordWithin room = reach recordCost room e.depth e.record := by
  induction e generalizing room with
  | literal | reference | unknown => exact (reach_zero ..).symm
  | grouping inner line ih =>
    simp only [recordWithin, funext ih, within_reach]
    exact map_reach (fun r => recordWith (grouping inner line) (.entry "expression" r .empty)) _
  | unary operator right ih =>
    simp only [recordWithin, funext ih, within_reach]
    exact map_reach (fun r => recordWith (unary operator right)
      (.entry "operator" (.text operator.lexeme) (.entry "right" r .empty))) _
  | binary left operator right ihl ihr =>
    simp only [recordWithin, funext ihl, funext ihr, within_reach]
    exact bind_reach (fun l r => recordWith (binary left operator right)
      (.entry "operator" (.text operator.lexeme) (.entry "left" l (.entry "right" r .empty)))) ..

/-- An expression that has a prefix text is written if there is room. -/
theorem prefixTextWithin_eq (h : e.prefixText = .ok text) (room : Nat) :
    e.prefixTextWithin room = reach textCost room e.depth text := by
  induction e generalizing text room with
  | literal | reference =>
    cases h
    exact (reach_zero ..).symm
  | unknown => cases h
  | grouping inner line ih =>
    cases hinner : inner.prefixText with
    | error fault => simp [prefixText, hinner, Except.map] at h
    | ok innerText =>
      simp only [prefixText, hinner, Except.map, Except.ok.injEq] at h
      simp only [prefixTextWithin, funext (ih hinner), within_reach, map_reach, h]
      rfl
  | unary operator right ih =>
    cases hright : right.prefixText with
    | error fault => simp [prefixText, hright, Except.map] at h
    | ok rightText =>
      simp only [prefixText, hright, Except.map, Except.ok.injEq] at h
      simp only [prefixTextWithin, funext (ih hright), within_reach, map_reach, h]
      rfl
  | binary left operator right ihl ihr =>
    cases hleft : left.prefixText with
    | error fault => simp [prefixText, hleft, bind, Except.bind] at h
    | ok leftText =>
      cases hright : right.prefixText with
      | error fault => simp [prefixText, hleft, hright, bind, Except.bind] at h
      | ok rightText =>
        simp only [prefixText, hleft, hright, bind, Except.bind, pure, Except.pure,
          Except.ok.injEq] at h
        simp only [prefixTextWithin, funext (ihl hleft), funext (ihr hright), within_reach, ← h]
        exact bind_reach (parenthesizeTwo operator.lexeme) ..

end LoxSyntax.Expr
