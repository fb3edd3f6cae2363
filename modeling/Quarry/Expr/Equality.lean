import Quarry.Expr
/-!
Decidable equality of expressions.
-/
namespace Quarry.Expr

mutual

def same : Expr → Expr → Bool
  | .constant v t, .constant w u => decide (v = w) && decide (t = u)
  | .captured n v, .captured m w => decide (n = m) && decide (v = w)
  | .parameter p, .parameter q => decide (p = q)
  | .collection a, .collection b => decide (a = b)
  | .member a n, .member b m => same a b && decide (n = m)
  | .unary o a, .unary p b => decide (o = p) && same a b
  | .binary o a b, .binary p c d => decide (o = p) && same a c && same b d
  | .call k r as, .call l s bs => decide (k = l) && sameOption r s && sameList as bs
  | .lambda ps a, .lambda qs b => decide (ps = qs) && same a b
  | .construct t ms, .construct u ns => decide (t = u) && sameMembers ms ns
  | .outerRow r, .outerRow s => decide (r = s)
  | .table a, .table b => decide (a = b)
  | .column a, .column b => decide (a = b)
  | .select a, .select b => sameSelect a b
  | .join k a b c, .join l d e f => decide (k = l) && same a d && same b e && sameOption c f
  | .projection p, .projection q => sameProjection p q
  | .function f, .function g => sameCall f g
  | .subquery f s, .subquery g t => sameCall f g && decide (s = t)
  | _, _ => false

def sameOption : Option Expr → Option Expr → Bool
  | none, none => true
  | some a, some b => same a b
  | _, _ => false

def sameList : List Expr → List Expr → Bool
  | [], [] => true
  | a :: as, b :: bs => same a b && sameList as bs
  | _, _ => false

def sameMembers : List (String × Expr) → List (String × Expr) → Bool
  | [], [] => true
  | (n, a) :: ms, (m, b) :: ns => decide (n = m) && same a b && sameMembers ms ns
  | _, _ => false

def sameSelect : Select Expr → Select Expr → Bool
  | ⟨l, cs, s, f⟩, ⟨m, ds, t, g⟩ =>
    decide (l = m) && sameMembers cs ds && same s t && sameOption f g

def sameProjection : Projection Expr → Projection Expr → Bool
  | ⟨s, p, h⟩, ⟨t, q, i⟩ => sameSelect s t && same p q && decide (h = i)

def sameCall : FunctionCall Expr → FunctionCall Expr → Bool
  | ⟨m, f, r, as, t⟩, ⟨n, g, s, bs, u⟩ =>
    decide (m = n) && decide (f = g) && sameOption r s && sameList as bs && decide (t = u)

end

mutual

theorem eq_of_same : (a b : Expr) → same a b = true → a = b
  | .constant .., b, h | .captured .., b, h | .parameter _, b, h | .collection _, b, h
  | .outerRow _, b, h | .table _, b, h | .column _, b, h => by cases b <;> simp_all [same]
  | .member a n, b, h => by
    cases b <;> simp only [same, Bool.and_eq_true, decide_eq_true_eq, Bool.false_eq_true] at h
    rw [eq_of_same a _ h.1, h.2]
  | .unary o a, b, h => by
    cases b <;> simp only [same, Bool.and_eq_true, decide_eq_true_eq, Bool.false_eq_true] at h
    rw [h.1, eq_of_same a _ h.2]
  | .binary o a c, b, h => by
    cases b <;> simp only [same, Bool.and_eq_true, decide_eq_true_eq, Bool.false_eq_true] at h
    rw [h.1.1, eq_of_same a _ h.1.2, eq_of_same c _ h.2]
  | .call k r as, b, h => by
    cases b <;> simp only [same, Bool.and_eq_true, decide_eq_true_eq, Bool.false_eq_true] at h
    rw [h.1.1, eq_of_sameOption r _ h.1.2, eq_of_sameList as _ h.2]
  | .lambda ps a, b, h => by
    cases b <;> simp only [same, Bool.and_eq_true, decide_eq_true_eq, Bool.false_eq_true] at h
    rw [h.1, eq_of_same a _ h.2]
  | .construct t ms, b, h => by
    cases b <;> simp only [same, Bool.and_eq_true, decide_eq_true_eq, Bool.false_eq_true] at h
    rw [h.1, eq_of_sameMembers ms _ h.2]
  | .select s, b, h => by
    cases b <;> simp only [same, Bool.false_eq_true] at h
    rw [eq_of_sameSelect s _ h]
  | .join k a c d, b, h => by
    cases b <;> simp only [same, Bool.and_eq_true, decide_eq_true_eq, Bool.false_eq_true] at h
    rw [h.1.1.1, eq_of_same a _ h.1.1.2, eq_of_same c _ h.1.2, eq_of_sameOption d _ h.2]
  | .projection p, b, h => by
    cases b <;> simp only [same, Bool.false_eq_true] at h
    rw [eq_of_sameProjection p _ h]
  | .function f, b, h => by
    cases b <;> simp only [same, Bool.false_eq_true] at h
    rw [eq_of_sameCall f _ h]
  | .subquery f s, b, h => by
    cases b <;> simp only [same, Bool.and_eq_true, decide_eq_true_eq, Bool.false_eq_true] at h
    rw [eq_of_sameCall f _ h.1, h.2]

theorem eq_of_sameOption : (a b : Option Expr) → sameOption a b = true → a = b
  | none, b, h => by cases b <;> simp_all [sameOption]
  | some a, none, h => by simp [sameOption] at h
  | some a, some b, h => by rw [eq_of_same a b (by simpa only [sameOption] using h)]

theorem eq_of_sameList : (as bs : List Expr) → sameList as bs = true → as = bs
  | [], bs, h => by cases bs <;> simp_all [sameList]
  | a :: as, [], h => by simp [sameList] at h
  | a :: as, b :: bs, h => by
    simp only [sameList, Bool.and_eq_true] at h
    rw [eq_of_same a b h.1, eq_of_sameList as bs h.2]

theorem eq_of_sameMembers :
    (ms ns : List (String × Expr)) → sameMembers ms ns = true → ms = ns
  | [], ns, h => by cases ns <;> simp_all [sameMembers]
  | (n, a) :: ms, [], h => by simp [sameMembers] at h
  | (n, a) :: ms, (m, b) :: ns, h => by
    simp only [sameMembers, Bool.and_eq_true, decide_eq_true_eq] at h
    rw [h.1.1, eq_of_same a b h.1.2, eq_of_sameMembers ms ns h.2]

theorem eq_of_sameSelect : (s t : Select Expr) → sameSelect s t = true → s = t
  | ⟨l, cs, s, f⟩, ⟨m, ds, t, g⟩, h => by
    simp only [sameSelect, Bool.and_eq_true, decide_eq_true_eq] at h
    rw [h.1.1.1, eq_of_sameMembers cs ds h.1.1.2, eq_of_same s t h.1.2, eq_of_sameOption f g h.2]

theorem eq_of_sameProjection : (p q : Projection Expr) → sameProjection p q = true → p = q
  | ⟨s, p, i⟩, ⟨t, q, j⟩, h => by
    simp only [sameProjection, Bool.and_eq_true, decide_eq_true_eq] at h
    rw [eq_of_sameSelect s t h.1.1, eq_of_same p q h.1.2, h.2]

theorem eq_of_sameCall : (f g : FunctionCall Expr) → sameCall f g = true → f = g
  | ⟨m, f, r, as, t⟩, ⟨n, g, s, bs, u⟩, h => by
    simp only [sameCall, Bool.and_eq_true, decide_eq_true_eq] at h
    rw [h.1.1.1.1, h.1.1.1.2, eq_of_sameOption r s h.1.1.2, eq_of_sameList as bs h.1.2, h.2]

end

mutual

theorem same_self : (a : Expr) → same a a = true
  | .constant .. | .captured .. | .parameter _ | .collection _ | .outerRow _ | .table _
  | .column _ => by simp [same]
  | .member a _ => by simp [same, same_self a]
  | .unary _ a => by simp [same, same_self a]
  | .binary _ a b => by simp [same, same_self a, same_self b]
  | .call _ r as => by simp [same, sameOption_self r, sameList_self as]
  | .lambda _ a => by simp [same, same_self a]
  | .construct _ ms => by simp [same, sameMembers_self ms]
  | .select s => by simp [same, sameSelect_self s]
  | .join _ a b c => by simp [same, same_self a, same_self b, sameOption_self c]
  | .projection p => by simp [same, sameProjection_self p]
  | .function f => by simp [same, sameCall_self f]
  | .subquery f _ => by simp [same, sameCall_self f]

theorem sameOption_self : (a : Option Expr) → sameOption a a = true
  | none => by simp [sameOption]
  | some a => by simp [sameOption, same_self a]

theorem sameList_self : (as : List Expr) → sameList as as = true
  | [] => by simp [sameList]
  | a :: as => by simp [sameList, same_self a, sameList_self as]

theorem sameMembers_self : (ms : List (String × Expr)) → sameMembers ms ms = true
  | [] => by simp [sameMembers]
  | (_, a) :: ms => by simp [sameMembers, same_self a, sameMembers_self ms]

theorem sameSelect_self : (s : Select Expr) → sameSelect s s = true
  | ⟨_, cs, s, f⟩ => by simp [sameSelect, sameMembers_self cs, same_self s, sameOption_self f]

theorem sameProjection_self : (p : Projection Expr) → sameProjection p p = true
  | ⟨s, p, _⟩ => by simp [sameProjection, sameSelect_self s, same_self p]

theorem sameCall_self : (f : FunctionCall Expr) → sameCall f f = true
  | ⟨_, _, r, as, _⟩ => by simp [sameCall, sameOption_self r, sameList_self as]

end

instance : DecidableEq Expr := fun a b =>
  decidable_of_iff (same a b = true) ⟨eq_of_same a b, fun h => h ▸ same_self a⟩

end Quarry.Expr
