import InsideNginx.General.Arena

/-! Byte memory: a byte for each address, with loads, stores and copies of ranges. -/
namespace ByteMemory
variable {β : Type*}

/-- The `n` bytes from `a` on. -/
def load (m : ℕ → β) (a n : ℕ) : List β := (List.range n).map fun i => m (a + i)

/-- The bytes are stored from `a` on. -/
def store (m : ℕ → β) (a : ℕ) (bytes : List β) : ℕ → β :=
  fun x => if a ≤ x then (bytes[x - a]?).getD (m x) else m x

/-- The word of eight bytes at an address, the lowest byte first. -/
def word (m : ℕ → UInt8) (a : ℕ) : ℕ := (load m a 8).foldr (fun b w => b.toNat + 256*w) 0

/-- `memcpy`. -/
def copy (m : ℕ → β) (dst src n : ℕ) : ℕ → β := store m dst (load m src n)

/-- Elements of `size` bytes are stored one after another. -/
def storeAll (m : ℕ → β) (a size : ℕ) : List (List β) → ℕ → β
  | [] => m
  | v::vs => storeAll (store m a v) (a + size) size vs

/-- The bytes of a region are as before. -/
def Same (m m' : ℕ → β) (r : Region) : Prop := ∀ x, r.addr ≤ x → x < r.addr + r.size → m' x = m x

variable {m m' : ℕ → β}

@[simp] theorem length_load (m : ℕ → β) (a n : ℕ) : (load m a n).length = n := by simp [load]

theorem Same.trans {m'' : ℕ → β} {r : Region} (h : Same m m' r) (h' : Same m' m'' r) : Same m m'' r :=
  fun x hlo hhi => (h' x hlo hhi).trans (h x hlo hhi)

theorem Same.mono {r s : Region} (h : Same m m' r) (hlo : r.addr ≤ s.addr) (hhi : s.addr + s.size ≤ r.addr + r.size) :
    Same m m' s := fun x hx hx' => h x (hlo.trans hx) (hx'.trans_le hhi)

theorem load_congr {a n : ℕ} (h : Same m m' ⟨a,n⟩) : load m' a n = load m a n := by
  apply List.map_congr_left
  intro i hi
  exact h (a + i) (Nat.le_add_right a i) (Nat.add_lt_add_left (List.mem_range.mp hi) a)

/-- A store keeps what does not overlap it. -/
theorem same_store {a : ℕ} {bytes : List β} {r : Region} (h : r.Apart ⟨a,bytes.length⟩) : Same m (store m a bytes) r := by
  intro x hlo hhi
  unfold store Region.Apart at *
  simp only at h
  split
  · rw [List.getElem?_eq_none (by omega)]
    rfl
  · rfl

theorem load_store (m : ℕ → β) (a : ℕ) (bytes : List β) : load (store m a bytes) a bytes.length = bytes := by
  apply List.ext_getElem
  · simp
  · intro i hi hi'
    simp [load,store,hi']

theorem same_copy {dst src n : ℕ} {r : Region} (h : r.Apart ⟨dst,n⟩) : Same m (copy m dst src n) r :=
  same_store (by rw [length_load]; exact h)

/-- A part of what was copied is the part of the source. -/
theorem load_copy {dst src n o k : ℕ} (h : o + k ≤ n) : load (copy m dst src n) (dst + o) k = load m (src + o) k := by
  apply List.map_congr_left
  intro i hi
  have hi := List.mem_range.mp hi
  have hdiff : dst + o + i - dst = o + i := by omega
  have hlt : o + i < n := by omega
  unfold copy store
  rw [if_pos (by omega),hdiff]
  simp [load,hlt,Nat.add_assoc]

variable {a size : ℕ} {vs : List (List β)}

theorem same_storeAll {r : Region} (hsize : ∀ v ∈ vs, v.length = size) (h : r.Apart ⟨a,size*vs.length⟩) :
    Same m (storeAll m a size vs) r := by
  induction vs generalizing m a with
  | nil => exact fun _ _ _ => rfl
  | cons v vs ih =>
    have hv := hsize v List.mem_cons_self
    rw [List.length_cons,Nat.mul_succ] at h
    unfold Region.Apart at h
    simp only at h
    have hfirst : Same m (store m a v) r := by
      refine same_store ?_
      unfold Region.Apart
      simp only
      rw [hv]
      omega
    refine hfirst.trans (ih (fun w hw => hsize w (List.mem_cons_of_mem _ hw)) ?_)
    unfold Region.Apart
    simp only
    omega

/-- Every element is read where it was stored. -/
theorem load_storeAll (hsize : ∀ v ∈ vs, v.length = size) {i : ℕ} {v : List β} (hv : vs[i]? = some v) :
    load (storeAll m a size vs) (a + size*i) size = v := by
  induction vs generalizing m a i with
  | nil => cases hv
  | cons w vs ih =>
    have hw := hsize w List.mem_cons_self
    have hrest := fun v hv => hsize v (List.mem_cons_of_mem w hv)
    cases i with
    | zero =>
      cases hv
      have hsame : Same (store m a v) (storeAll (store m a v) (a + size) size vs) ⟨a,size⟩ :=
        same_storeAll hrest (.inr (.inr (.inl le_rfl)))
      have hload := load_store m a v
      rw [hw] at hload
      rw [Nat.mul_zero,Nat.add_zero]
      exact (load_congr hsame).trans hload
    | succ i =>
      have hi := ih (m := store m a w) (a := a + size) hrest hv
      rw [Nat.mul_succ,Nat.add_comm (size*i),← Nat.add_assoc]
      exact hi

end ByteMemory
