/-!
# Numbers in Words

A machine keeps numbers in words of 64 bits and bytes in buffers of limited size. It gives
up, in a panic, where a product or a sum has no place in a word, where a buffer would become
too large, and where bytes outside of a buffer were to be overwritten.

What is reckoned on the way to a result is told in exact numbers first (`Reckoning`): every
product and every sum is written down, in the order in which a machine comes to them. The
machine has the result if all of them have a place in a word, and panics otherwise
(`Reckoning.run`).

**Main statements**:
- `Reckoning.run_eq_ok_iff` : what the machine comes to is the exact result
- `Reckoning.run_of_all` : it comes to it, where all numbers have a place in a word
-/

namespace Granule

/-! ## §1 Machines -/

/-- Why a machine gives up. -/
inductive Panic where
  /-- A product or a sum has no place in a word. -/
  | overflow
  /-- A buffer would have more bytes than any may have. -/
  | capacity
  /-- Bytes outside of a buffer were to be overwritten. -/
  | outOfRange
deriving DecidableEq, Repr

/-- What a machine comes to. -/
abbrev Checked (α : Type) := Except Panic α

/-- The numbers below this have a place in a word. -/
def wordLimit : Nat := 2 ^ 64

/-- A buffer has fewer bytes than this. -/
def bufferLimit : Nat := 2 ^ 63

namespace Checked

variable {α β : Type}

/-- Puts a number into a word. -/
def word (n : Nat) : Checked Nat := if n < wordLimit then .ok n else .error .overflow

/-- Asks for a buffer of `n` bytes. -/
def buffer (n : Nat) : Checked Unit := if n < bufferLimit then .ok () else .error .capacity

/-- A machine comes only to such results, and comes to one where its words are wide enough. -/
structure Gives (x : Checked α) (wide : Prop) (P : α → Prop) : Prop where
  sound : ∀ a, x = .ok a → P a
  total : wide → ∃ a, x = .ok a

theorem word_eq_ok_iff {n m : Nat} : word n = .ok m ↔ n < wordLimit ∧ n = m := by
  unfold word
  split <;> simp [*]

@[simp] theorem word_of_lt {n : Nat} (h : n < wordLimit) : word n = .ok n := if_pos h

@[simp] theorem buffer_of_lt {n : Nat} (h : n < bufferLimit) : buffer n = .ok () := if_pos h

theorem buffer_eq_ok_iff {n : Nat} : buffer n = .ok () ↔ n < bufferLimit := by
  unfold buffer
  split <;> simp [*]

theorem bind_eq_ok_iff {x : Checked α} {f : α → Checked β} {b : β} :
    (x >>= f) = .ok b ↔ ∃ a, x = .ok a ∧ f a = .ok b := by
  cases x <;> simp [bind, Except.bind]

/-- A machine gives up for one reason if one of its steps does. -/
theorem bind_ne_error {x : Checked α} {f : α → Checked β} {p : Panic} (hx : x ≠ .error p)
    (hf : ∀ a, f a ≠ .error p) : (x >>= f) ≠ .error p := by
  cases x with
  | ok a => exact hf a
  | error q => exact fun h => hx (congrArg Except.error (Except.error.inj h))

/-- Numbers are put into words without touching a buffer. -/
theorem word_ne_outOfRange (n : Nat) : word n ≠ .error .outOfRange := by
  unfold word
  split <;> exact nofun

@[simp] theorem ok_bind (a : α) (f : α → Checked β) : ((.ok a : Checked α) >>= f) = f a := rfl

@[simp] theorem error_bind (p : Panic) (f : α → Checked β) :
    ((.error p : Checked α) >>= f) = .error p := rfl

namespace Gives

variable {x : Checked α} {wide wide' : Prop} {P Q : α → Prop}

theorem mono (h : x.Gives wide P) (himp : ∀ a, P a → Q a) : x.Gives wide Q :=
  ⟨fun a ha => himp a (h.sound a ha), h.total⟩

theorem of_wide (h : x.Gives wide P) (himp : wide' → wide) : x.Gives wide' P :=
  ⟨h.sound, fun hwide => h.total (himp hwide)⟩

/-- What a machine comes to from one of its results is what it comes to on the whole. -/
theorem bind {f : α → Checked β} {R : β → Prop} (h : x.Gives wide P)
    (hf : ∀ a, P a → (f a).Gives wide R) : (x >>= f).Gives wide R := by
  refine ⟨fun b hb => ?_, fun hwide => ?_⟩
  · obtain ⟨a, ha, hb⟩ := bind_eq_ok_iff.mp hb
    exact (hf a (h.sound a ha)).sound b hb
  · obtain ⟨a, ha⟩ := h.total hwide
    obtain ⟨b, hb⟩ := (hf a (h.sound a ha)).total hwide
    exact ⟨b, bind_eq_ok_iff.mpr ⟨a, ha, hb⟩⟩

theorem ok {a : α} (h : P a) : Gives (.ok a) wide P :=
  ⟨fun b hb => by cases hb; exact h, fun _ => ⟨a, rfl⟩⟩

/-- A machine that comes to one result, if it comes to any. -/
theorem of_eq {a : α} (hsound : ∀ b, x = .ok b → a = b) (htotal : wide → x = .ok a) :
    x.Gives wide (· = a) :=
  ⟨fun b hb => (hsound b hb).symm, fun hwide => ⟨a, htotal hwide⟩⟩

theorem eq_ok {a : α} (h : x.Gives wide (· = a)) (hwide : wide) : x = .ok a := by
  obtain ⟨b, hb⟩ := h.total hwide
  rw [hb, h.sound b hb]

theorem word {n : Nat} (h : wide → n < wordLimit) : (Checked.word n).Gives wide (· = n) :=
  of_eq (fun _ hm => (word_eq_ok_iff.mp hm).2) fun hwide => word_of_lt (h hwide)

theorem buffer {n : Nat} (h : wide → n < bufferLimit) :
    (Checked.buffer n).Gives wide fun _ => True :=
  ⟨fun _ _ => trivial, fun hwide => ⟨(), buffer_of_lt (h hwide)⟩⟩

end Gives

end Checked

/-! ## §2 Results with the numbers on the way -/

/-- A result, with all the products and sums that came up on the way to it. -/
structure Reckoning (α : Type) where
  result : α
  numbers : List Nat

namespace Reckoning

-- the empty product is the literal one, also where that of a monoid is in scope
attribute [local instance (1100)] One.ofOfNat1

variable {α β : Type}

instance : Monad Reckoning where
  pure a := ⟨a, []⟩
  bind x f := ⟨(f x.result).result, x.numbers ++ (f x.result).numbers⟩

def times (a b : Nat) : Reckoning Nat := ⟨a * b, [a * b]⟩

def plus (a b : Nat) : Reckoning Nat := ⟨a + b, [a + b]⟩

/-- The sum of numbers, which are added one by one to the one in hand. -/
def sumFrom (hand : Nat) : List Nat → Reckoning Nat
  | [] => pure hand
  | n :: ns => do
    let sum ← plus hand n
    sumFrom sum ns

/-- The product of numbers, with which the one in hand is multiplied one by one. -/
def productFrom (hand : Nat) : List Nat → Reckoning Nat
  | [] => pure hand
  | n :: ns => do
    let product ← times hand n
    productFrom product ns

/-- One reckoning for each of several things. -/
def each (f : α → Reckoning β) : List α → Reckoning (List β)
  | [] => pure []
  | a :: rest => do
    let b ← f a
    let bs ← each f rest
    pure (b :: bs)

/-- Every number on the way has a property. -/
def All (p : Nat → Prop) (x : Reckoning α) : Prop := ∀ n ∈ x.numbers, p n

/-- What a machine comes to, which gives up at the first number that has no place in a word. -/
def run (x : Reckoning α) : Checked α :=
  if x.numbers.all (· < wordLimit) then .ok x.result else .error .overflow

/-! ### Results -/

@[simp] theorem result_pure (a : α) : (pure a : Reckoning α).result = a := rfl

@[simp] theorem result_bind (x : Reckoning α) (f : α → Reckoning β) :
    (x >>= f).result = (f x.result).result := rfl

@[simp] theorem result_times (a b : Nat) : (times a b).result = a * b := rfl

@[simp] theorem result_plus (a b : Nat) : (plus a b).result = a + b := rfl

@[simp] theorem result_sumFrom (hand : Nat) (ns : List Nat) :
    (sumFrom hand ns).result = ns.foldl (· + ·) hand := by
  induction ns generalizing hand with
  | nil => rfl
  | cons n ns ih => exact ih (hand + n)

@[simp] theorem result_productFrom (hand : Nat) (ns : List Nat) :
    (productFrom hand ns).result = hand * ns.prod := by
  induction ns generalizing hand with
  | nil => simp [productFrom]
  | cons n ns ih => simp [productFrom, ih, Nat.mul_assoc]

@[simp] theorem result_each (f : α → Reckoning β) (as : List α) :
    (each f as).result = as.map fun a => (f a).result := by
  induction as with
  | nil => rfl
  | cons a rest ih => simp [each, ih]

/-! ### Numbers -/

@[simp] theorem all_pure {p : Nat → Prop} (a : α) : (pure a : Reckoning α).All p := by
  intro n hn
  cases hn

@[simp] theorem all_bind {p : Nat → Prop} (x : Reckoning α) (f : α → Reckoning β) :
    (x >>= f).All p ↔ x.All p ∧ (f x.result).All p :=
  List.forall_mem_append

@[simp] theorem all_times {p : Nat → Prop} (a b : Nat) : (times a b).All p ↔ p (a * b) :=
  List.forall_mem_singleton

@[simp] theorem all_plus {p : Nat → Prop} (a b : Nat) : (plus a b).All p ↔ p (a + b) :=
  List.forall_mem_singleton

@[simp] theorem all_each {p : Nat → Prop} (f : α → Reckoning β) (as : List α) :
    (each f as).All p ↔ ∀ a ∈ as, (f a).All p := by
  induction as with
  | nil => simp [each]
  | cons a rest ih => simp [each, ih]

theorem All.mono {p q : Nat → Prop} {x : Reckoning α} (h : x.All p) (hpq : ∀ n, p n → q n) :
    x.All q := fun n hn => hpq n (h n hn)

/-- What a machine comes to is the exact result, and all numbers on the way have places in words. -/
theorem run_eq_ok_iff {x : Reckoning α} {a : α} :
    x.run = .ok a ↔ x.All (· < wordLimit) ∧ x.result = a := by
  have hall : x.numbers.all (· < wordLimit) = true ↔ x.All (· < wordLimit) := by
    simp only [List.all_eq_true, decide_eq_true_eq, All]
  unfold run
  rw [← hall]
  split <;> simp [*]

/-- A machine comes to the result, where all numbers on the way have places in words. -/
theorem run_of_all {x : Reckoning α} (h : x.All (· < wordLimit)) : x.run = .ok x.result :=
  run_eq_ok_iff.mpr ⟨h, rfl⟩

theorem run_ne_outOfRange (x : Reckoning α) : x.run ≠ .error .outOfRange := by
  unfold run
  split <;> exact nofun

theorem result_of_run {x : Reckoning α} {a : α} (h : x.run = .ok a) : x.result = a :=
  (run_eq_ok_iff.mp h).2

end Reckoning

end Granule
