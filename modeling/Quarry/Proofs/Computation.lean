import Quarry.Proofs.Integers
import Quarry.Proofs.Rows
/-!
What the bound form of a scalar computes. A scalar is bound to an expression over the columns of the
rows that its parameters stand for, and where it is projected through a new select, to one over the
columns of that select; both compute the value that the scalar has.
-/
namespace Quarry

namespace Value

/-- What is read as an integer is one. -/
theorem isInteger_of_asInt64 {i : Value} {k : Int64} (h : i.asInt64 = .ok k) :
    ∃ w, i.IsInteger w k.toInt := by
  cases i with
  | int32 n =>
      obtain rfl := Except.ok.inj h
      exact ⟨.int32, (Int32.toInt_toInt64 n).symm ▸ .int32 n⟩
  | int64 n => exact ⟨.int64, Except.ok.inj h ▸ .int64 n⟩
  | _ => cases h

theorem IsInteger.asInt64 {v : Value} {w : Width} {n : Int} (h : v.IsInteger w n) :
    ∃ k, v.asInt64 = .ok k ∧ k.toInt = n := by
  cases h with
  | int32 m => exact ⟨m.toInt64, rfl, Int32.toInt_toInt64 m⟩
  | int64 m => exact ⟨m, rfl, rfl⟩

theorem IsInteger.isNull {v : Value} {w : Width} {n : Int} (h : v.IsInteger w n) :
    v.isNull = false := by
  cases h <;> rfl

/-- What is one more than an integer, if anything, is the next integer. -/
theorem increment_eq_ok {i v : Value} {k : Int64} (h : i.asInt64 = .ok k)
    (hv : applyBinary (.arithmetic .add) i (.int32 1) = .ok v) : ∃ w, v.IsInteger w (k.toInt + 1) := by
  obtain ⟨w, hi⟩ := isInteger_of_asInt64 h
  have hsum := applyBinary_integers .add hi (.int32 1)
  rw [hv] at hsum
  cases hfit : (w.common .int32).value? (k.toInt + 1) with
  | none =>
      rw [combineInts_outOfRange rfl hfit rfl] at hsum
      cases hsum
  | some u =>
      rw [combineInts_eq_ok rfl hfit (by rintro ⟨⟩)] at hsum
      exact ⟨_, Except.ok.inj hsum ▸ Width.value?_eq_some.mp hfit⟩

theorem charAt_eq_ok {s i v : Value} (h : s.charAt i = .ok v) (hs : s.isNull = false)
    (hi : i.isNull = false) :
    ∃ k t c, i.asInt64 = .ok k ∧ s = .text t ∧ 0 ≤ k.toInt ∧ t.toList[k.toInt.toNat]? = some c ∧
      v = .char c := by
  simp only [charAt, hs, hi, Bool.or_self, Bool.false_eq_true, if_false, bind_eq_ok] at h
  obtain ⟨k, hk, t, ht, h⟩ := h
  split at h
  next c hc =>
    split at hc
    next => cases hc
    next hnonneg =>
      refine ⟨k, t, c, hk, ?_, by omega, hc, (Except.ok.inj h).symm⟩
      cases s <;> simp_all [asText]
  next => cases h

/-- The character at an index is the one from the position after it, if there is such a position. -/
theorem charFrom_increment {s i v w : Value} (h : s.charAt i = .ok v)
    (hw : applyBinary (.arithmetic .add) i (.int32 1) = .ok w) : s.charFrom w = .ok v := by
  cases hnull : s.isNull || i.isNull with
  | true =>
      rw [charAt, hnull, if_pos rfl] at h
      rw [charFrom, ← h]
      cases hs : s.isNull with
      | true => rfl
      | false =>
          rw [hs, Bool.false_or] at hnull
          obtain rfl : i = .null := by cases i <;> simp_all [isNull]
          obtain rfl := Except.ok.inj hw
          rfl
  | false =>
      obtain ⟨hs, hi⟩ := Bool.or_eq_false_iff.mp hnull
      obtain ⟨k, t, c, hk, rfl, hnonneg, hc, rfl⟩ := charAt_eq_ok h hs hi
      obtain ⟨width, hwidth⟩ := increment_eq_ok hk hw
      obtain ⟨j, hj, hint⟩ := hwidth.asInt64
      have hpos : ¬ j.toInt < 1 := by omega
      have hat : t.toList[j.toInt.toNat - 1]? = some c := by
        rw [← hc]
        congr 1
        omega
      simp only [charFrom, hs, hwidth.isNull, Bool.or_self, Bool.false_eq_true, if_false, hj, asText,
        bind, Except.bind, hpos, hat]
      rfl

end Value

/-- The failure to add one to a value that is used as an index. -/
def PositionError (indexed : Value → Prop) (err : Error) : Prop :=
  ∃ i, indexed i ∧ Value.applyBinary (.arithmetic .add) i (.int32 1) = .error err

/-- The value that a bound scalar stands for, where the characters that it reads are at the indices
`indexed`. A character is the one at the index, also where there is no position after it. -/
inductive Computes (find : Finder) (indexed : Value → Prop) (env : Frame) : Expr → Value → Prop
  | constant (v t) : Computes find indexed env (.constant v t) v
  | column {c row v} (hrow : env.lookup c.label = some row) (hv : find row c = some v) :
      Computes find indexed env (.column c) v
  | member {e name w v} (hw : Computes find indexed env e w) (hv : w.member name = .ok v) :
      Computes find indexed env (.member e name) v
  | unary {op e w v} (hw : Computes find indexed env e w) (hv : Value.applyUnary op w = .ok v) :
      Computes find indexed env (.unary op e) v
  | binary {op l r x y v} (hx : Computes find indexed env l x) (hy : Computes find indexed env r y)
      (hv : Value.applyBinary op x y = .ok v) : Computes find indexed env (.binary op l r) v
  | constructNil {t} : Computes find indexed env (.construct t []) (.record [])
  | constructCons {t name e v ms fs} (hv : Computes find indexed env e v)
      (hrest : Computes find indexed env (.construct t ms) (.record fs)) :
      Computes find indexed env (.construct t ((name, e) :: ms)) (.record ((name, v) :: fs))
  | charAt {s i start x y v} (hi : indexed y) (hx : Computes find indexed env s x)
      (hy : Computes find indexed env i y) (hstart : Binding.successor i = .ok start)
      (hv : x.charAt y = .ok v) :
      Computes find indexed env
        (.function ⟨.charAt, .substr, some s, [start, .literal (.int32 1)], .char⟩) v

namespace Computes

variable {db : Database} {find : Finder} {indexed : Value → Prop} {env env' : Frame} {e : Expr} {v : Value}

/-- More rows may be in sight. -/
theorem mono (h : Computes find indexed env e v)
    (henv : ∀ l row, env.lookup l = some row → env'.lookup l = some row) :
    Computes find indexed env' e v := by
  induction h with
  | constant v t => exact .constant v t
  | column hrow hv => exact .column (henv _ _ hrow) hv
  | member _ hv ih => exact .member ih hv
  | unary _ hv ih => exact .unary ih hv
  | binary _ _ hv ihx ihy => exact .binary ihx ihy hv
  | constructNil => exact .constructNil
  | constructCons _ _ ihv ihrest => exact .constructCons ihv ihrest
  | charAt hi _ _ hstart hv ihx ihy => exact .charAt hi ihx ihy hstart hv

/-- A record computes each of its members. -/
theorem lookup {t : DataType} {ms : List (String × Expr)} {name : String} {x : Expr}
    (h : Computes find indexed env (.construct t ms) v) (hx : ms.lookup name = some x) :
    ∃ w, v.member name = .ok w ∧ Computes find indexed env x w := by
  induction ms generalizing v with
  | nil => cases hx
  | cons m ms ih =>
      cases h with
      | @constructCons _ field e w _ fs hw hrest =>
          rw [List.lookup_cons] at hx
          cases hname : name == field with
          | true =>
              rw [hname] at hx
              exact ⟨w, by simp [Value.member, List.lookup_cons, hname], Option.some.inj hx ▸ hw⟩
          | false =>
              rw [hname] at hx
              obtain ⟨u, hu, hxu⟩ := ih hrest hx
              refine ⟨u, ?_, hxu⟩
              simpa [Value.member, List.lookup_cons, hname] using hu

/-- The parts of what is computed are computed, but for those of a function. -/
theorem child {c : Expr} (h : Computes find indexed env e v) (hf : Binding.isComputed e = false)
    (hc : c ∈ e.children) : ∃ w, Computes find indexed env c w := by
  induction h with
  | constant | column => cases hc
  | member hw | unary hw =>
      obtain rfl := List.mem_singleton.mp hc
      exact ⟨_, hw⟩
  | binary hx hy =>
      rcases List.mem_pair.mp hc with rfl | rfl
      · exact ⟨_, hx⟩
      · exact ⟨_, hy⟩
  | constructNil => cases hc
  | constructCons hv hrest _ ih =>
      rcases List.mem_cons.mp hc with rfl | hc
      · exact ⟨_, hv⟩
      · exact ih rfl hc
  | charAt => cases hf

/-- The parts that are made output columns are computed. -/
theorem taken {sources : List String} {x : Expr} (h : Computes find indexed env e v)
    (hx : x ∈ Binding.taken sources e false) : ∃ w, Computes find indexed env x w := by
  induction e using Expr.children_induction generalizing v with
  | step e ih =>
      rw [Binding.taken_eq] at hx
      cases ht : Binding.takes sources false e with
      | true =>
          rw [ht, if_pos rfl, List.mem_singleton] at hx
          exact ⟨v, hx ▸ h⟩
      | false =>
          rw [ht, if_neg (by simp)] at hx
          obtain ⟨c, hc, hx⟩ := List.mem_flatMap.mp hx
          have hproj : Binding.isProjection e = false := by cases h <;> rfl
          have hf : Binding.isComputed e = false := by
            cases h <;> first | rfl | cases ht
          obtain ⟨w, hw⟩ := h.child hf hc
          rw [hproj, Bool.or_false] at hx
          exact ih c hc hw hx

theorem yields_construct {tolerated : Error → Prop} {t : DataType} {ms : List (String × Expr)}
    {fs : Record} :
    Yields tolerated (db.scalar find env (.construct t ms)) (· = .record fs) ↔
      Yields tolerated (db.fields find env ms) (· = fs) := by
  rw [Database.scalar]
  cases db.fields find env ms with
  | ok row => exact iff_of_eq (Value.record.injEq row fs)
  | error err => exact Iff.rfl

/-- The position of a character, which is evaluated where its index is not a constant. -/
theorem position_yields {i start : Expr} {x y : Value} (hi : indexed y)
    (hy : Computes find indexed env i y)
    (ihy : Yields (PositionError indexed) (db.scalar find env i) (· = y))
    (hstart : Binding.successor i = .ok start) (hv : x.charAt y = .ok v) :
    Yields (PositionError indexed) (db.scalar find env start) (x.charFrom · = .ok v) := by
  unfold Binding.successor at hstart
  split at hstart
  next c t =>
    obtain ⟨w, hw, rfl⟩ := map_eq_ok.mp hstart
    cases hy
    exact Value.charFrom_increment hv hw
  next =>
    obtain rfl := Except.ok.inj hstart
    rw [Database.scalar]
    refine ihy.bind ?_
    rintro y rfl
    show Yields _ (Value.applyBinary (.arithmetic .add) y (.int32 1)) _
    cases hw : Value.applyBinary (.arithmetic .add) y (.int32 1) with
    | ok w => exact Value.charFrom_increment hv hw
    | error err => exact ⟨y, hi, hw⟩

/-- Evaluation yields what is computed, unless there is no position after an index. -/
theorem scalar_yields (h : Computes find indexed env e v) :
    Yields (PositionError indexed) (db.scalar find env e) (· = v) := by
  induction h with
  | constant v t => exact rfl
  | @column c row v hrow hv =>
      have hfound : (env.lookup c.label).bind (find · c) = some v := by rw [hrow, Option.bind_some, hv]
      rw [Database.scalar, hfound]
      exact rfl
  | member _ hv ih | unary _ hv ih =>
      rw [Database.scalar]
      refine ih.bind ?_
      rintro _ rfl
      rw [hv]
      exact rfl
  | binary _ _ hv ihx ihy =>
      rw [Database.scalar]
      refine ihx.bind ?_
      rintro _ rfl
      refine ihy.bind ?_
      rintro _ rfl
      rw [hv]
      exact rfl
  | constructNil => exact rfl
  | constructCons _ _ ihv ihrest =>
      rw [yields_construct] at ihrest ⊢
      rw [Database.fields]
      refine ihv.bind ?_
      rintro _ rfl
      refine ihrest.bind ?_
      rintro _ rfl
      exact rfl
  | @charAt s i start x y v hi hx hy hstart hv ihx ihy =>
      rw [Database.scalar, Database.functionValue]
      refine ihx.bind ?_
      rintro x rfl
      rw [Database.scalars]
      have hposition := position_yields hi hy ihy hstart hv
      cases hs : db.scalar find env start with
      | ok w =>
          rw [hs] at hposition
          have hw : x.charFrom w = .ok v := hposition
          show Yields _ (x.charFrom w) _
          rw [hw]
          exact rfl
      | error err =>
          rw [hs] at hposition
          exact hposition

/-- Without a character index evaluation does not fail. -/
theorem scalar_eq_ok (h : Computes find (fun _ => False) env e v) :
    db.scalar find env e = .ok v := by
  have hyields : Yields (PositionError fun _ => False) (db.scalar find env e) (· = v) :=
    h.scalar_yields
  cases hs : db.scalar find env e with
  | ok w =>
      rw [hs] at hyields
      exact congrArg Except.ok hyields
  | error err =>
      rw [hs] at hyields
      obtain ⟨i, hi, -⟩ := hyields
      exact hi.elim

end Computes

/-- The values of the indices at which an expression reads characters. -/
def Expr.Indexes (values : Parameter → Option Value) (e : Expr) (i : Value) : Prop :=
  ∃ string index, .call .charAt (some string) [index] ∈ e.nodes ∧ index.evaluateWith values = .ok i

theorem Expr.Indexes.of_child {values : Parameter → Option Value} {e c : Expr} {i : Value}
    (h : c.Indexes values i) (hc : c ∈ e.children) : e.Indexes values i := by
  obtain ⟨string, index, hmem, hi⟩ := h
  exact ⟨string, index, mem_nodes_of_child hc hmem, hi⟩

theorem Expr.Indexes.of_tail {values : Parameter → Option Value} {t : DataType}
    {m : String × Expr} {ms : List (String × Expr)} {i : Value}
    (h : (construct t ms).Indexes values i) : (construct t (m :: ms)).Indexes values i := by
  obtain ⟨string, index, hmem, hi⟩ := h
  rcases mem_nodes_tail hmem with heq | hmem
  · cases heq
  · exact ⟨string, index, hmem, hi⟩

namespace Binding

variable {catalog : Catalog} {style : IdentifierCase} {bound : List (Nat × Expr)} {n m : Nat}
variable {find : Finder} {indexed : Value → Prop} {env : Frame} {e r : Expr} {v : Value}

/-- What a scalar is bound to computes its value. -/
theorem Binds.computes {values : Nat → Option Value} (h : Binds catalog style bound n e r m)
    (hi : ∀ i, e.Indexes (fun p => values p.id) i → indexed i)
    (hbound : ∀ id x, bound.lookup id = some x →
      ∃ w, values id = some w ∧ Computes find indexed env x w)
    (hv : e.evaluateWith (fun p => values p.id) = .ok v) : Computes find indexed env r v := by
  have hchild : ∀ {e c : Expr}, (∀ i, e.Indexes (fun p => values p.id) i → indexed i) →
      c ∈ e.children → ∀ i, c.Indexes (fun p => values p.id) i → indexed i :=
    fun hi hc i h => hi i (h.of_child hc)
  induction h generalizing v with
  | constant => exact Except.ok.inj hv ▸ .constant _ _
  | captured => exact Except.ok.inj hv ▸ .constant _ _
  | parameter h =>
      obtain ⟨w, hw, hcomputes⟩ := hbound _ _ h
      simp only [Expr.evaluateWith, hw] at hv
      exact Except.ok.inj hv ▸ hcomputes
  | member ht h ih =>
      simp only [Expr.evaluateWith, bind_eq_ok] at hv
      obtain ⟨w, hw, hv⟩ := hv
      have hcomputes := ih (hchild hi (by simp [Expr.children])) hbound hw
      rcases memberOf_cases h with ⟨t, ms, rfl, hlookup⟩ | ⟨-, rfl⟩
      · obtain ⟨u, hu, hx⟩ := hcomputes.lookup hlookup
        exact Except.ok.inj (hu.symm.trans hv) ▸ hx
      · exact .member hcomputes hv
  | unary h ih =>
      simp only [Expr.evaluateWith, bind_eq_ok] at hv
      obtain ⟨w, hw, hv⟩ := hv
      exact .unary (ih (hchild hi (by simp [Expr.children])) hbound hw) hv
  | binary ha hb iha ihb =>
      simp only [Expr.evaluateWith, bind_eq_ok] at hv
      obtain ⟨x, hx, y, hy, hv⟩ := hv
      exact .binary (iha (hchild hi (by simp [Expr.children])) hbound hx)
        (ihb (hchild hi (by simp [Expr.children])) hbound hy) hv
  | constructNil => exact Except.ok.inj hv ▸ .constructNil
  | constructCons _ _ ihe ihms =>
      simp only [Expr.evaluateWith, Expr.evaluateMembers, bind_eq_ok, pure_eq_ok] at hv
      obtain ⟨_, ⟨w, hw, fs, hfs, rfl⟩, rfl⟩ := hv
      refine .constructCons (ihe (hchild hi (by simp [Expr.children])) hbound hw)
        (ihms (fun i h => hi i h.of_tail) hbound ?_)
      rw [Expr.evaluateWith, hfs]
      rfl
  | charAt hs hindex h ihs ihi =>
      simp only [Expr.evaluateWith, bind_eq_ok] at hv
      obtain ⟨x, hx, y, hy, hv⟩ := hv
      simp only [substring, bind_eq_ok, pure_eq_ok] at h
      obtain ⟨start, hstart, rfl⟩ := h
      exact .charAt (hi y ⟨_, _, Expr.self_mem_nodes _, hy⟩)
        (ihs (hchild hi (by simp [Expr.children])) hbound hx)
        (ihi (hchild hi (by simp [Expr.children])) hbound hy) hstart hv
  | collection | select | filter | join | toList => cases hv
  | existence hm => cases hm <;> cases hv

/-- What is moved into a select computes over its rows what it computed over those of its
sources. -/
theorem Moved.computes {db : Database} {l : String} {sources : List String}
    {columns : List (String × Expr)} {row : Record} (h : Moved l sources columns e false r)
    (hv : Computes find indexed env e v)
    (henv : ∀ label row, env.lookup label = some row → label ∈ sources)
    (hrow : db.fields find env columns = .ok row) (hfinds : find.Finds row) :
    Computes find indexed [(l, row)] r v := by
  have htaken : ∀ {e r v}, takes sources false e → Moved l sources columns e false r →
      Computes find indexed env e v → Computes find indexed [(l, row)] r v := by
    intro e r v ht hmoved hv
    obtain ⟨i, name, hi, rfl⟩ := (moved_iff_reads ht).mp hmoved
    obtain ⟨⟨field, w⟩, hw, rfl, hscalar⟩ :=
      exists_getElem?_left (Database.fields_eq_ok.mp hrow) hi
    have hyields : Yields (PositionError indexed) (db.scalar find env e) (· = v) :=
      hv.scalar_yields
    rw [hscalar] at hyields
    obtain rfl : w = v := hyields
    exact .column (by simp) (hfinds _ _ hw)
  induction hv generalizing r with
  | constant v t =>
      cases h.alike rfl with
      | leaf => exact .constant v t
  | column hc hv =>
      exact htaken (by simpa [takes] using henv _ _ hc) h (.column hc hv)
  | member _ hv ih =>
      cases h.alike rfl with
      | leaf hleaf => cases hleaf
      | member _ hc => exact .member (ih hc) hv
  | unary _ hv ih =>
      cases h.alike rfl with
      | leaf hleaf => cases hleaf
      | unary _ hc => exact .unary (ih hc) hv
  | binary _ _ hv ihx ihy =>
      cases h.alike rfl with
      | leaf hleaf => cases hleaf
      | binary _ hl hr => exact .binary (ihx hl) (ihy hr) hv
  | constructNil =>
      cases h.alike rfl with
      | leaf hleaf => cases hleaf
      | construct _ hms =>
          cases hms
          exact .constructNil
  | constructCons _ _ ihv ihrest =>
      cases h.alike rfl with
      | leaf hleaf => cases hleaf
      | construct _ hms =>
          cases hms with
          | @cons m m' ms ms' hm hms =>
              obtain ⟨name, e'⟩ := m'
              obtain ⟨rfl, hm⟩ := hm
              exact .constructCons (ihv hm) (ihrest (moved_construct hms))
  | charAt hi hx hy hstart hv => exact htaken rfl h (.charAt hi hx hy hstart hv)

end Binding

end Quarry
