import Xv6.Virtio.Descriptors

/-!
# Requests are neither lost nor mixed up

Every descriptor that is not free belongs to the chain of one thread.  The heads of the requests
whose buffers are in use are, each once, in the `avail` ring, with the device, or in the `used`
ring; so there are never more of them than the rings have room for.
-/

namespace Xv6.Virtio

open Function List Option

variable {T B : Type} {blockno : B → Nat} {d d' : Disk B} {a : At B} {r : Req B} {idx : Idx}
  {s s' : System T B} {t u : T} {h : Nat} {waiting done is : List Nat} {l : Step T B}

namespace At

/-- The descriptors that a thread has. -/
def chain : At B → List Nat
  | .format _ idx | .ring _ idx | .bump _ idx | .wait _ idx | .asleep _ idx | .finish _ idx =>
    idx.toList
  | _ => []

/-- The buffer that a thread has. -/
def buf : At B → Option B
  | .start r | .alloc r | .format r _ | .ring r _ | .bump r _ | .wait r _ | .asleep r _
  | .finish r _ => some r.b
  | _ => none

/-- The thread has `vdisk_lock`. -/
def locks : At B → Bool
  | .alloc _ | .format _ _ | .ring _ _ | .bump _ _ | .wait _ _ | .finish _ _ | .scan => true
  | _ => false

/-- The request whose descriptors are formatted. -/
def request : At B → Option (Req B × Idx)
  | .ring r idx | .bump r idx | .wait r idx | .asleep r idx | .finish r idx => some (r, idx)
  | _ => none

/-- The request that has been given to the device. -/
def submitted : At B → Option (Req B × Idx)
  | .wait r idx | .asleep r idx => some (r, idx)
  | _ => none

theorem request_chain (eq : a.request = some (r, idx)) :
    a.chain = idx.toList ∧ a.buf = some r.b := by
  cases a <;> cases eq <;> exact ⟨rfl, rfl⟩

theorem submitted_request (eq : a.submitted = some (r, idx)) : a.request = some (r, idx) := by
  cases a <;> cases eq <;> rfl

theorem submitted_chain (eq : a.submitted = some (r, idx)) :
    idx.i₀ ∈ a.chain ∧ a.buf = some r.b := by
  cases a <;> cases eq <;> exact ⟨mem_cons_self, rfl⟩

end At

theorem Idx.head_mem (idx : Idx) : idx.i₀ ∈ idx.toList := mem_cons_self

/-- The descriptors of a chain are those of a request. -/
structure Disk.Formatted (blockno : B → Nat) (d : Disk B) (r : Req B) (idx : Idx) : Prop where
  op : d.ops idx.i₀ = ⟨r.write, blockno r.b * (bsize / 512)⟩
  first : d.desc idx.i₀ = ⟨.op idx.i₀, 16, true, false, idx.i₁⟩
  second : d.desc idx.i₁ = ⟨.data r.b, bsize, true, !r.write, idx.i₂⟩
  third : d.desc idx.i₂ = ⟨.status idx.i₀, 1, false, true, 0⟩
  info : (d.info idx.i₀).b = some r.b

/-- What a thread knows of the driver's data. -/
structure Disk.Fits (blockno : B → Nat) (d : Disk B) (a : At B) : Prop where
  distinct : a.chain.Nodup
  taken : ∀ i ∈ a.chain, i < num ∧ d.free i = false
  formatted : ∀ r idx, a.request = some (r, idx) → d.Formatted blockno r idx
  working : ∀ r idx, a = .ring r idx ∨ a = .bump r idx → d.disk r.b = true
  done : ∀ r idx, a = .finish r idx → d.disk r.b = false
  next : ∀ r idx, a = .bump r idx → d.avail.data (d.avail.tail % num) = idx.i₀

/-- The part of the driver's data that a thread knows of is the same. -/
structure Disk.Keeps (d d' : Disk B) (a : At B) : Prop where
  free : ∀ i ∈ a.chain, d'.free i = d.free i
  desc : ∀ i ∈ a.chain, d'.desc i = d.desc i
  ops : ∀ i ∈ a.chain, d'.ops i = d.ops i
  info : ∀ i ∈ a.chain, (d'.info i).b = (d.info i).b
  disk : ∀ b, a.buf = some b → a.submitted = none → d'.disk b = d.disk b
  next : ∀ r idx, a = .bump r idx →
    d'.avail.data (d'.avail.tail % num) = d.avail.data (d.avail.tail % num)

namespace Disk

theorem Keeps.refl (d : Disk B) (a : At B) : d.Keeps d a :=
  ⟨fun _ _ => rfl, fun _ _ => rfl, fun _ _ => rfl, fun _ _ => rfl, fun _ _ _ => rfl,
    fun _ _ _ => rfl⟩

theorem Formatted.keep (formatted : d.Formatted blockno r idx)
    (same : ∀ i ∈ idx.toList, d'.desc i = d.desc i ∧ d'.ops i = d.ops i ∧
      (d'.info i).b = (d.info i).b) :
    d'.Formatted blockno r idx := by
  obtain ⟨desc₀, ops₀, info₀⟩ := same idx.i₀ (by simp [Idx.toList])
  have desc₁ := (same idx.i₁ (by simp [Idx.toList])).1
  have desc₂ := (same idx.i₂ (by simp [Idx.toList])).1
  exact ⟨by rw [ops₀, formatted.op], by rw [desc₀, formatted.first],
    by rw [desc₁, formatted.second], by rw [desc₂, formatted.third], by rw [info₀, formatted.info]⟩

theorem Fits.keep (fits : d.Fits blockno a) (keeps : d.Keeps d' a) : d'.Fits blockno a := by
  refine ⟨fits.distinct, fun i mem => ?_, fun r idx eq => ?_, fun r idx eq => ?_,
    fun r idx eq => ?_,
    fun r idx eq => ?_⟩
  · rw [keeps.free i mem]
    exact fits.taken i mem
  · have chain := (At.request_chain eq).1
    refine (fits.formatted r idx eq).keep fun i mem => ?_
    rw [← chain] at mem
    exact ⟨keeps.desc i mem, keeps.ops i mem, keeps.info i mem⟩
  · have buf : a.buf = some r.b ∧ a.submitted = none := by
      obtain rfl | rfl := eq <;> exact ⟨rfl, rfl⟩
    rw [keeps.disk r.b buf.1 buf.2]
    exact fits.working r idx eq
  · rw [keeps.disk r.b (by rw [eq]; rfl) (by rw [eq]; rfl)]
    exact fits.done r idx eq
  · rw [keeps.next r idx eq]
    exact fits.next r idx eq

/-- A place without descriptors. -/
theorem Fits.out (chain : a.chain = []) (request : a.request = none) : d.Fits blockno a := by
  refine ⟨by rw [chain]; exact nodup_nil, by rw [chain]; rintro i ⟨⟩,
    by rw [request]; rintro r idx ⟨⟩, ?_, ?_, ?_⟩
  · rintro r idx (rfl | rfl) <;> cases request
  · rintro r idx rfl
    cases request
  · rintro r idx rfl
    cases request

/-- A request that the device has, or that it is done with. -/
theorem Fits.submit (fits : d.Fits blockno a) (request : a.request = some (r, idx)) :
    d.Fits blockno (.wait r idx) ∧ d.Fits blockno (.asleep r idx) ∧
      (d.disk r.b = false → d.Fits blockno (.finish r idx)) := by
  have chain := (At.request_chain request).1
  have distinct := fits.distinct
  have taken := fits.taken
  rw [chain] at distinct taken
  have formatted := fits.formatted r idx request
  refine ⟨⟨distinct, taken, ?_, ?_, ?_, ?_⟩, ⟨distinct, taken, ?_, ?_, ?_, ?_⟩,
    fun free => ⟨distinct, taken, ?_, ?_, ?_, ?_⟩⟩
  all_goals first
    | rintro r idx ⟨⟩
      first | exact formatted | exact free
    | rintro r idx (⟨⟨⟩⟩ | ⟨⟨⟩⟩)

theorem Formatted.chained (formatted : d.Formatted blockno r idx) (distinct : idx.toList.Nodup)
    (taken : ∀ i ∈ idx.toList, i < num ∧ d.free i = false) : d.Chained idx :=
  ⟨distinct, taken, by rw [formatted.first]; exact ⟨rfl, rfl⟩,
    by rw [formatted.second]; exact ⟨rfl, rfl⟩, by rw [formatted.third]⟩

end Disk

namespace System

/-- The head of a request that has not been completed. -/
def Pending (s : System T B) (h : Nat) : Prop :=
  ∃ t r idx, (s.pc t).submitted = some (r, idx) ∧ idx.i₀ = h ∧ s.disk.disk r.b = true

/-- The heads in the `avail` ring and in the `used` ring. -/
structure Queues (s : System T B) (waiting done : List Nat) : Prop where
  avail : s.disk.avail.Holds num uint16 waiting
  used : s.disk.used.Holds num uint16 done
  distinct : (waiting ++ (s.busy ++ done)).Nodup
  mem : ∀ h, h ∈ waiting ++ (s.busy ++ done) ↔ s.Pending h
  status : ∀ h ∈ done, (s.disk.info h).status = 0

structure Inv (blockno : B → Nat) (s : System T B) : Prop where
  panic : s.panic = none
  lock : ∀ t, (s.pc t).locks = true → s.lock = some t
  owner : ∀ t b, (s.pc t).buf = some b → s.owner b = some t
  fits : ∀ t, s.disk.Fits blockno (s.pc t)
  apart : ∀ t u i, i ∈ (s.pc t).chain → i ∈ (s.pc u).chain → u = t
  claimed : ∀ i, i < num → s.disk.free i = false → ∃ t, i ∈ (s.pc t).chain
  queues : ∃ waiting done, s.Queues waiting done

theorem Inv.boot : (System.boot T B).Inv blockno where
  panic := rfl
  lock := by rintro t ⟨⟩
  owner := by rintro t b ⟨⟩
  fits _ := .out rfl rfl
  apart := by rintro t u i ⟨⟩
  claimed i bound taken := by
    have free : (decide (i < num)) = false := taken
    simp [bound] at free
  queues := by
    refine ⟨[], [], .nil (by decide), .nil (by decide), nodup_nil, fun h => ?_, by rintro h ⟨⟩⟩
    refine iff_of_false (by rintro ⟨⟩) ?_
    rintro ⟨t, r, idx, ⟨⟩, -⟩

section

variable (inv : s.Inv blockno)
include inv

/-- Two threads have different buffers. -/
theorem Inv.buf_ne {b b' : B} (mine : (s.pc t).buf = some b)
    (yours : (s.pc u).buf = some b') (other : u ≠ t) : b' ≠ b := by
  rintro rfl
  exact other (some.inj ((inv.owner u b' yours).symm.trans (inv.owner t b' mine)))

/-- While a thread has the lock, no other one does what needs it. -/
theorem Inv.unlocked (mine : (s.pc t).locks = true) (other : u ≠ t) : (s.pc u).locks = false := by
  by_contra yours
  have yours := inv.lock u (by simpa using yours)
  exact other (some.inj (yours.symm.trans (inv.lock t mine)))

theorem Inv.pending_bound (pending : s.Pending h) : h < num := by
  obtain ⟨t, r, idx, at_, rfl, -⟩ := pending
  exact ((inv.fits t).taken idx.i₀ (At.submitted_chain at_).1).1

/-- A thread whose head is pending has given it to the device. -/
theorem Inv.pending_own (mine : h ∈ (s.pc t).chain) (pending : s.Pending h) :
    ∃ r idx, (s.pc t).submitted = some (r, idx) ∧ idx.i₀ = h ∧ s.disk.disk r.b = true := by
  obtain ⟨u, r, idx, at_, rfl, working⟩ := pending
  obtain rfl : u = t := inv.apart t u idx.i₀ mine (At.submitted_chain at_).1
  exact ⟨r, idx, at_, rfl, working⟩

end

/-- There are not more pending requests than descriptors. -/
theorem Queues.length_le (queues : s.Queues waiting done) (inv : s.Inv blockno) :
    (waiting ++ (s.busy ++ done)).length ≤ num := by
  have sub : waiting ++ (s.busy ++ done) ⊆ range num := fun h mem =>
    mem_range.2 (inv.pending_bound ((queues.mem h).1 mem))
  simpa using (queues.distinct.subperm sub).length_le

/-- There is room for one more request. -/
theorem Queues.room (queues : s.Queues waiting done) (inv : s.Inv blockno) (here : s.pc t = a)
    (mine : h ∈ a.chain) (out : a.submitted = none) :
    h ∉ waiting ++ (s.busy ++ done) ∧ waiting.length < num := by
  rw [← here] at mine out
  have fresh : h ∉ waiting ++ (s.busy ++ done) := by
    intro mem
    obtain ⟨r, idx, at_, -⟩ := inv.pending_own mine ((queues.mem h).1 mem)
    rw [out] at at_
    cases at_
  have sub : h :: (waiting ++ (s.busy ++ done)) ⊆ range num := by
    intro i mem
    rcases mem_cons.1 mem with rfl | mem
    · exact mem_range.2 ((inv.fits t).taken i mine).1
    · exact mem_range.2 (inv.pending_bound ((queues.mem i).1 mem))
  have length := ((nodup_cons.2 ⟨fresh, queues.distinct⟩).subperm sub).length_le
  refine ⟨fresh, ?_⟩
  simp only [length_cons, length_append, length_range] at length
  omega

section Steps

variable [DecidableEq T] {old : At B}

/-- A step of a thread that goes on at `a`, and what it leaves of the others. -/
structure Goes (t : T) (a : At B) (s s' : System T B) : Prop where
  pc : s'.pc = Function.update s.pc t a
  lock : ∀ u, u ≠ t → s.lock = some u → s'.lock = some u
  owner : ∀ u b, u ≠ t → s.owner b = some u → s'.owner b = some u
  keeps : ∀ u, u ≠ t → s.disk.Keeps s'.disk (s.pc u)

theorem Goes.self (goes : Goes t a s s') : s'.pc t = a := by rw [goes.pc, update_self]

theorem Goes.other (goes : Goes t a s s') (other : u ≠ t) : s'.pc u = s.pc u := by
  rw [goes.pc, update_of_ne other]

/-- The invariant after a step of one thread, from what the step does to that thread. -/
theorem Inv.of_step (inv : s.Inv blockno) (here : s.pc t = old) (goes : Goes t a s s')
    (panic : s'.panic = s.panic) (lock : a.locks = true → s'.lock = some t)
    (owner : ∀ b, a.buf = some b → s'.owner b = some t) (fits : s'.disk.Fits blockno a)
    (apart : ∀ u i, u ≠ t → i ∈ a.chain → i ∉ (s.pc u).chain)
    (claimed : ∀ i, i < num → s'.disk.free i = false → i ∈ a.chain ∨
      s.disk.free i = false ∧ i ∉ old.chain)
    (queues : ∃ waiting done, s'.Queues waiting done) : s'.Inv blockno := by
  have self := goes.self
  have other (u : T) (ne : u ≠ t) := goes.other ne
  refine ⟨panic.trans inv.panic, fun u locks => ?_, fun u b buf => ?_, fun u => ?_, fun u v i => ?_,
    fun i bound taken => ?_, queues⟩
  · by_cases same : u = t <;> grind [goes.lock, inv.lock]
  · by_cases same : u = t <;> grind [goes.owner, inv.owner]
  · by_cases same : u = t
    · rw [same, self]
      exact fits
    · rw [other u same]
      exact (inv.fits u).keep (goes.keeps u same)
  · by_cases first : u = t <;> by_cases second : v = t <;> grind [inv.apart]
  · rcases claimed i bound taken with mine | ⟨before, elsewhere⟩
    · exact ⟨t, by rwa [self]⟩
    · obtain ⟨u, yours⟩ := inv.claimed i bound before
      have other' : u ≠ t := by
        rintro rfl
        exact elsewhere (here ▸ yours)
      exact ⟨u, by rwa [other u other']⟩

section

variable (queues : s.Queues waiting done) (goes : Goes t a s s')
  (avail : s'.disk.avail.Holds num uint16 waiting) (used : s'.disk.used = s.disk.used)
  (busy : s'.busy = s.busy) (disk : ∀ u r idx, u ≠ t → (s.pc u).submitted = some (r, idx) →
    s'.disk.disk r.b = s.disk.disk r.b)
  (status : ∀ h, s.Pending h → (s'.disk.info h).status = (s.disk.info h).status)
include queues goes avail used busy disk status

/-- The requests that are not completed are the same. -/
theorem Queues.congr (own : ∀ r idx, (a.submitted = some (r, idx) ∧ s'.disk.disk r.b = true) ↔
      (s.pc t).submitted = some (r, idx) ∧ s.disk.disk r.b = true) :
    s'.Queues waiting done := by
  have self := goes.self
  have other (u : T) (ne : u ≠ t) := goes.other ne
  have pending (h : Nat) : s'.Pending h ↔ s.Pending h := by
    constructor
    · rintro ⟨u, r, idx, at_, head, working⟩
      refine ⟨u, r, idx, ?_⟩
      by_cases same : u = t <;> grind
    · rintro ⟨u, r, idx, at_, head, working⟩
      refine ⟨u, r, idx, ?_⟩
      by_cases same : u = t <;> grind
  refine ⟨avail, by rw [used]; exact queues.used, by rw [busy]; exact queues.distinct, fun h => ?_,
    fun h mem => ?_⟩
  · rw [busy, pending]
    exact queues.mem h
  · have waits := (queues.mem h).1 (mem_append_right _ (mem_append_right _ mem))
    rw [status h waits]
    exact queues.status h mem

/-- The same for a thread whose request the device does not have. -/
theorem Queues.outside (here : s.pc t = old) (before : old.submitted = none)
    (after : a.submitted = none) : ∃ waiting done, s'.Queues waiting done := by
  refine ⟨waiting, done, queues.congr goes avail used busy disk status fun r idx => ?_⟩
  rw [here, before, after]
  exact iff_of_false (by rintro ⟨⟨⟩, -⟩) (by rintro ⟨⟨⟩, -⟩)

end

section

variable (inv : s.Inv blockno) (here : s.pc t = old)
include inv here

/-- A step that changes no data of the driver. -/
theorem Inv.move (pc : s'.pc = update s.pc t a)
    (others : ∀ u, u ≠ t → s.lock = some u → s'.lock = some u)
    (owners : ∀ u b, u ≠ t → s.owner b = some u → s'.owner b = some u) (disk : s'.disk = s.disk)
    (busy : s'.busy = s.busy) (panic : s'.panic = s.panic)
    (lock : a.locks = true → s'.lock = some t) (owner : ∀ b, a.buf = some b → s'.owner b = some t)
    (chain : a.chain = old.chain) (fits : s.disk.Fits blockno a)
    (own : ∀ r idx, s.disk.disk r.b = true →
      (a.submitted = some (r, idx) ↔ old.submitted = some (r, idx))) : s'.Inv blockno := by
  have goes : Goes t a s s' := ⟨pc, others, owners, fun u other => by rw [disk]; exact .refl _ _⟩
  obtain ⟨waiting, done, queues⟩ := inv.queues
  refine inv.of_step here goes panic lock owner (by rw [disk]; exact fits) ?_ ?_
    ⟨waiting, done, queues.congr goes (by rw [disk]; exact queues.avail) (by rw [disk]) busy
      (fun u r idx _ _ => by rw [disk]) (fun h _ => by rw [disk]) fun r idx => ?_⟩
  · grind [inv.apart]
  · grind
  · rw [disk, here]
    exact and_congr_left fun working => own r idx working

/-- A step of a thread that has the lock. -/
theorem Inv.goes (mine : old.locks = true) (pc : s'.pc = update s.pc t a)
    (owner : ∀ u b, u ≠ t → s.owner b = some u → s'.owner b = some u)
    (free : ∀ u, u ≠ t → ∀ i ∈ (s.pc u).chain, s'.disk.free i = s.disk.free i ∧
      s'.disk.desc i = s.disk.desc i ∧ s'.disk.ops i = s.disk.ops i ∧
      (s'.disk.info i).b = (s.disk.info i).b)
    (disk : ∀ u b, u ≠ t → (s.pc u).buf = some b → (s.pc u).submitted = none →
      s'.disk.disk b = s.disk.disk b) : Goes t a s s' := by
  rw [← here] at mine
  have held := inv.lock t mine
  refine ⟨pc, fun u other yours => ?_, owner, fun u other => ⟨fun i mem => (free u other i mem).1,
    fun i mem => (free u other i mem).2.1, fun i mem => (free u other i mem).2.2.1,
    fun i mem => (free u other i mem).2.2.2, fun b buf => disk u b other buf, fun r idx bump => ?_⟩⟩
  · exact absurd (some.inj (yours.symm.trans held)) other
  · have out := inv.unlocked mine other
    rw [bump] at out
    cases out

/-- A step of a thread that keeps the lock, its buffer and its descriptors. -/
theorem Inv.hold (mine : old.locks = true) (goes : Goes t a s s') (panic : s'.panic = s.panic)
    (lock : s'.lock = s.lock) (owner : s'.owner = s.owner) (free : s'.disk.free = s.disk.free)
    (buf : a.buf = old.buf) (chain : a.chain = old.chain) (fits : s'.disk.Fits blockno a)
    (queues : ∃ waiting done, s'.Queues waiting done) : s'.Inv blockno := by
  subst here
  refine inv.of_step rfl goes panic (fun _ => ?_) (fun b at_ => ?_) fits ?_ ?_ queues
  · rw [lock]
    exact inv.lock t mine
  · rw [owner]
    exact inv.owner t b (buf ▸ at_)
  · grind [inv.apart]
  · grind

theorem Inv.acquire (free : s.lock = none) (buf : a.buf = old.buf) (chain : a.chain = old.chain)
    (fits : s.disk.Fits blockno a) (own : a.submitted = old.submitted) :
    ((s.setLock (some t)).goto t a).Inv blockno := by
  refine inv.move here rfl (fun u other held => ?_) (fun u b other held => held) rfl rfl rfl
    (fun _ => rfl) (fun b at_ => inv.owner t b (here ▸ buf ▸ at_)) chain fits
    fun r idx working => by rw [own]
  rw [free] at held
  cases held

theorem Inv.leave (mine : old.locks = true) (locks : a.locks = false)
    (buf : ∀ b, a.buf = some b → old.buf = some b) (chain : a.chain = old.chain)
    (fits : s.disk.Fits blockno a) (own : a.submitted = old.submitted) :
    ((s.setLock none).goto t a).Inv blockno := by
  have held := inv.lock t (here ▸ mine)
  refine inv.move here rfl (fun u other yours => ?_) (fun u b other held => held) rfl rfl rfl
    (fun at_ => ?_) (fun b at_ => inv.owner t b (here ▸ buf b at_)) chain fits
    fun r idx working => by rw [own]
  · exact absurd (some.inj (yours.symm.trans held)) other
  · rw [locks] at at_
    cases at_

end

section

variable (inv : s.Inv blockno)
include inv

omit [DecidableEq T] in
theorem Inv.submit (here : s.pc t = old) (request : old.request = some (r, idx)) :
    s.disk.Fits blockno (.wait r idx) ∧ s.disk.Fits blockno (.asleep r idx) ∧
      (s.disk.disk r.b = false → s.disk.Fits blockno (.finish r idx)) :=
  (inv.fits t).submit (here ▸ request)

/-- The loop of `virtio_disk_rw` ends. -/
theorem Inv.waited (here : s.pc t = .wait r idx)
    (free : s.disk.disk r.b = false) : (s.goto t (.finish r idx)).Inv blockno := by
  refine inv.move here rfl (fun u other held => held) (fun u b other held => held) rfl rfl rfl
    (fun _ => inv.lock t (by rw [here]; rfl)) (fun b at_ => inv.owner t b (by rw [here]; exact at_))
    rfl ((inv.submit here rfl).2.2 free) fun r' idx' working => ?_
  refine iff_of_false (by rintro ⟨⟩) ?_
  rintro ⟨⟩
  rw [free] at working
  cases working

omit [DecidableEq T] in
/-- Descriptors that are free are in no chain. -/
theorem Inv.spare (spare : s.disk.Spare is) (u : T) (i : Nat) (mem : i ∈ (s.pc u).chain) :
    i ∉ is := by
  intro new
  have taken := ((inv.fits u).taken i mem).2
  rw [(spare.2 i new).2] at taken
  cases taken

/-- `alloc3_desc` has found three descriptors. -/
theorem Inv.alloc (here : s.pc t = .alloc r) (spare : s.disk.Spare idx.toList) :
    ((s.setDisk (s.disk.claim idx.toList)).goto t (.format r idx)).Inv blockno := by
  have apart := inv.spare spare
  have free (i : Nat) :
      (s.disk.claim idx.toList).free i = (decide (i ∉ idx.toList) && s.disk.free i) :=
    rfl
  have goes : Goes t (.format r idx) s
      ((s.setDisk (s.disk.claim idx.toList)).goto t (.format r idx)) :=
    inv.goes here rfl rfl (fun _ _ _ held => held)
      (fun u _ i mem => ⟨(free i).trans (by simp [apart u i mem]), rfl, rfl, rfl⟩)
      fun _ _ _ _ _ => rfl
  obtain ⟨waiting, done, queues⟩ := inv.queues
  refine inv.of_step here goes rfl (fun _ => inv.lock t (by rw [here]; rfl))
    (fun b at_ => inv.owner t b (by rw [here]; exact at_)) ?_
    (fun u i _ at_ mem => apart u i mem at_)
    (fun i _ taken => ?_)
    (queues.outside goes queues.avail rfl rfl (fun _ _ _ _ _ => rfl) (fun _ _ => rfl) here rfl rfl)
  · refine ⟨spare.1, fun i mem => ⟨(spare.2 i mem).1, (free i).trans ?_⟩, by rintro r idx ⟨⟩,
      by rintro r idx (⟨⟨⟩⟩ | ⟨⟨⟩⟩), by rintro r idx ⟨⟩, by rintro r idx ⟨⟩⟩
    have mem : i ∈ idx.toList := mem
    simp [mem]
  · have taken := (free i).symm.trans taken
    by_cases mem : i ∈ idx.toList
    · exact .inl mem
    · exact .inr ⟨by simpa [mem] using taken, not_mem_nil⟩

/-- `alloc3_desc` has given back what it had found. -/
theorem Inv.exhausted (here : s.pc t = .alloc r) (spare : s.disk.Spare is) :
    (((s.setDisk ((s.disk.claim is).release is)).setLock none).goto t (.start r)).Inv blockno := by
  have free : ((s.disk.claim is).release is).free = s.disk.free := spare.free
  have goes : Goes t (.start r) s
      (((s.setDisk ((s.disk.claim is).release is)).setLock none).goto t (.start r)) :=
    inv.goes here rfl rfl (fun _ _ _ held => held)
      (fun u _ i mem => ⟨congrFun free i, if_neg (inv.spare spare u i mem), rfl, rfl⟩)
      fun _ _ _ _ _ => rfl
  obtain ⟨waiting, done, queues⟩ := inv.queues
  exact inv.of_step here goes rfl (by rintro ⟨⟩)
    (fun b at_ => inv.owner t b (by rw [here]; exact at_)) (.out rfl rfl) (by rintro u i - ⟨⟩)
    (fun i _ taken => .inr ⟨(congrFun free i).symm.trans taken, not_mem_nil⟩)
    (queues.outside goes queues.avail rfl rfl (fun _ _ _ _ _ => rfl) (fun _ _ => rfl) here rfl rfl)

/-- The head goes into the ring. -/
theorem Inv.ring (here : s.pc t = .ring r idx) :
    ((s.setDisk { s.disk with avail := s.disk.avail.put num idx.i₀ }).goto t (.bump r idx)).Inv
      blockno := by
  have fits := inv.fits t
  rw [here] at fits
  have formatted := fits.formatted r idx rfl
  have goes : Goes t (.bump r idx) s
      ((s.setDisk { s.disk with avail := s.disk.avail.put num idx.i₀ }).goto t (.bump r idx)) :=
    inv.goes here rfl rfl (fun _ _ _ held => held) (fun _ _ _ _ => ⟨rfl, rfl, rfl, rfl⟩)
      fun _ _ _ _ _ => rfl
  obtain ⟨waiting, done, queues⟩ := inv.queues
  obtain ⟨-, room⟩ := queues.room inv here idx.head_mem rfl
  refine inv.hold here rfl goes rfl rfl rfl rfl rfl rfl
    ⟨fits.distinct, fits.taken, ?_, ?_, by rintro r idx ⟨⟩, ?_⟩
    (queues.outside goes (queues.avail.put (by decide) room) rfl rfl (fun _ _ _ _ _ => rfl)
      (fun _ _ => rfl) here rfl rfl)
  · rintro r idx ⟨⟩
    exact ⟨formatted.op, formatted.first, formatted.second, formatted.third, formatted.info⟩
  · rintro r idx (⟨⟨⟩⟩ | ⟨⟨⟩⟩)
    exact fits.working r idx (.inl rfl)
  · rintro r idx ⟨⟩
    exact update_self ..

/-- The device can see the head. -/
theorem Inv.bump (here : s.pc t = .bump r idx) :
    ((s.setDisk { s.disk with avail := s.disk.avail.advance uint16 }).goto t (.wait r idx)).Inv
      blockno := by
  have fits := inv.fits t
  rw [here] at fits
  have goes : Goes t (.wait r idx) s
      ((s.setDisk { s.disk with avail := s.disk.avail.advance uint16 }).goto t (.wait r idx)) :=
    inv.goes here rfl rfl (fun _ _ _ held => held) (fun _ _ _ _ => ⟨rfl, rfl, rfl, rfl⟩)
      fun _ _ _ _ _ => rfl
  refine inv.hold here rfl goes rfl rfl rfl rfl rfl rfl
    ((inv.submit here rfl).1.keep ⟨fun _ _ => rfl, fun _ _ => rfl, fun _ _ => rfl, fun _ _ => rfl,
      fun _ _ _ => rfl, by rintro r idx ⟨⟩⟩) ?_
  obtain ⟨waiting, done, queues⟩ := inv.queues
  obtain ⟨fresh, room⟩ := queues.room inv here idx.head_mem rfl
  have moved : Perm ((waiting ++ [idx.i₀]) ++ (s.busy ++ done))
      (idx.i₀ :: (waiting ++ (s.busy ++ done))) := by
    rw [append_assoc]
    exact perm_middle
  refine ⟨waiting ++ [idx.i₀], done, queues.avail.advance (by decide) room (fits.next r idx rfl),
    queues.used, moved.nodup_iff.2 (nodup_cons.2 ⟨fresh, queues.distinct⟩), fun h => ?_,
    queues.status⟩
  refine moved.mem_iff.trans ?_
  rw [mem_cons, queues.mem h]
  constructor
  · rintro (rfl | ⟨u, r', idx', at_, head, working⟩)
    · exact ⟨t, r, idx, by rw [goes.self]; rfl, rfl, fits.working r idx (.inr rfl)⟩
    · have other : u ≠ t := by
        rintro rfl
        rw [here] at at_
        cases at_
      exact ⟨u, r', idx', by rw [goes.other other]; exact at_, head, working⟩
  · rintro ⟨u, r', idx', at_, head, working⟩
    by_cases same : u = t
    · rw [same, goes.self] at at_
      cases at_
      exact .inl head.symm
    · rw [goes.other same] at at_
      exact .inr ⟨u, r', idx', at_, head, working⟩

end

variable [DecidableEq B]

omit [DecidableEq T] in
theorem format_formatted (distinct : idx.toList.Nodup) :
    (s.disk.format blockno r idx).Formatted blockno r idx := by
  have apart : idx.i₀ ≠ idx.i₁ ∧ idx.i₀ ≠ idx.i₂ ∧ idx.i₁ ≠ idx.i₂ := by
    simpa [Idx.toList, and_assoc] using distinct
  obtain ⟨apart₁, apart₂, apart₃⟩ := apart
  refine ⟨update_self .., ?_, ?_, update_self .., ?_⟩
  · simp only [Disk.format]
    rw [update_of_ne apart₂, update_of_ne apart₁, update_self]
  · simp only [Disk.format]
    rw [update_of_ne apart₃, update_self]
  · simp only [Disk.format, update_self]

section

variable (inv : s.Inv blockno)
include inv

theorem Inv.format (here : s.pc t = .format r idx) :
    ((s.setDisk (s.disk.format blockno r idx)).goto t (.ring r idx)).Inv blockno := by
  have fits := inv.fits t
  rw [here] at fits
  have apart (u : T) (other : u ≠ t) (i : Nat) (mem : i ∈ (s.pc u).chain) : i ∉ idx.toList :=
    fun own => other (inv.apart t u i (by rw [here]; exact own) mem)
  have disk (u : T) (b : B) (other : u ≠ t) (buf : (s.pc u).buf = some b) :
      (s.disk.format blockno r idx).disk b = s.disk.disk b :=
    update_of_ne (inv.buf_ne (t := t) (by rw [here]; rfl) buf other) ..
  have info (u : T) (other : u ≠ t) (i : Nat) (mem : i ∈ (s.pc u).chain) :
      (s.disk.format blockno r idx).info i = s.disk.info i := by
    refine update_of_ne ?_ ..
    rintro rfl
    exact apart u other _ mem idx.head_mem
  have goes : Goes t (.ring r idx) s
      ((s.setDisk (s.disk.format blockno r idx)).goto t (.ring r idx)) := by
    refine inv.goes here rfl rfl (fun _ _ _ held => held) (fun u other i mem => ?_)
      fun u b other buf _ => disk u b other buf
    obtain ⟨ne₀, ne₁, ne₂⟩ : i ≠ idx.i₀ ∧ i ≠ idx.i₁ ∧ i ≠ idx.i₂ := by
      simpa [Idx.toList] using apart u other i mem
    refine ⟨rfl, ?_, update_of_ne ne₀ .., congrArg Info.b (info u other i mem)⟩
    change (s.disk.format blockno r idx).desc i = s.disk.desc i
    simp only [Disk.format]
    rw [update_of_ne ne₂, update_of_ne ne₁, update_of_ne ne₀]
  obtain ⟨waiting, done, queues⟩ := inv.queues
  refine inv.hold here rfl goes rfl rfl rfl rfl rfl rfl
    ⟨fits.distinct, fits.taken, ?_, ?_, by rintro r idx ⟨⟩, by rintro r idx ⟨⟩⟩
    (queues.outside goes queues.avail rfl rfl (fun u r' idx' other at_ => ?_) ?_ here rfl rfl)
  · rintro r idx ⟨⟩
    exact format_formatted fits.distinct
  · rintro r idx (⟨⟨⟩⟩ | ⟨⟨⟩⟩)
    exact update_self ..
  · exact disk u r'.b other (At.submitted_chain at_).2
  · rintro h ⟨u, r', idx', at_, rfl, -⟩
    have other : u ≠ t := by
      rintro rfl
      rw [here] at at_
      cases at_
    exact congrArg Info.status (info u other _ (At.submitted_chain at_).1)

omit [DecidableEq T] [DecidableEq B] in
/-- The data at the end of `virtio_disk_rw`. -/
theorem Inv.finish_eq (here : s.pc t = .finish r idx) :
    s.disk.finish idx = .ok (Disk.release { s.disk with
      info := update s.disk.info idx.i₀ { s.disk.info idx.i₀ with b := none } } idx.toList) := by
  have fits := inv.fits t
  rw [here] at fits
  have chained := (fits.formatted r idx rfl).chained fits.distinct fits.taken
  exact Disk.freeChain_eq ⟨chained.distinct, chained.taken, chained.first, chained.second,
    chained.third⟩

theorem Inv.finish (here : s.pc t = .finish r idx) (d : Disk B) (eq : s.disk.finish idx = .ok d) :
    Inv blockno { ((s.setDisk d).setLock none).goto t .idle with
      owner := update s.owner r.b none } := by
  have goes : Goes t .idle s { ((s.setDisk d).setLock none).goto t .idle with
      owner := update s.owner r.b none } := by
    rw [inv.finish_eq here] at eq
    obtain rfl := Except.ok.inj eq
    refine inv.goes here rfl rfl (fun u b other yours => ?_) (fun u other i mem => ?_)
      fun _ _ _ _ _ => rfl
    · refine (update_of_ne ?_ ..).trans yours
      rintro rfl
      have own := inv.owner t r.b (by rw [here]; rfl)
      exact other (some.inj (yours.symm.trans own))
    · have out : i ∉ idx.toList := fun own => other (inv.apart t u i (by rw [here]; exact own) mem)
      have head : i ≠ idx.i₀ := by
        rintro rfl
        exact out idx.head_mem
      refine ⟨?_, if_neg out, rfl, congrArg Info.b (update_of_ne head ..)⟩
      change (decide (i ∈ idx.toList) || s.disk.free i) = s.disk.free i
      simp [out]
  rw [inv.finish_eq here] at eq
  obtain rfl := Except.ok.inj eq
  obtain ⟨waiting, done, queues⟩ := inv.queues
  refine inv.of_step here goes rfl (by rintro ⟨⟩) (by rintro b ⟨⟩) (.out rfl rfl)
    (by rintro u i - ⟨⟩) (fun i bound taken => ?_) (queues.outside goes queues.avail rfl rfl
      (fun _ _ _ _ _ => rfl) (fun h _ => ?_) here rfl rfl)
  · have taken : (decide (i ∈ idx.toList) || s.disk.free i) = false := taken
    obtain ⟨out, taken⟩ : i ∉ idx.toList ∧ s.disk.free i = false := by simpa using taken
    exact .inr ⟨taken, out⟩
  · change (update s.disk.info idx.i₀ { s.disk.info idx.i₀ with b := none } h).status = _
    rw [update_apply]
    split_ifs with same
    · rw [same]
    · rfl

omit [DecidableEq T] in
/-- The next completion is that of a request whose thread waits for it. -/
theorem Inv.complete_eq (some_ : s.disk.used.head ≠ s.disk.used.tail) :
    ∃ u r idx, (s.pc u).submitted = some (r, idx) ∧ idx.i₀ = s.disk.used.front num ∧
      s.disk.disk r.b = true ∧ s.disk.complete = .ok { s.disk with
        disk := update s.disk.disk r.b false, used := s.disk.used.pop uint16 } := by
  obtain ⟨waiting, done, queues⟩ := inv.queues
  cases done with
  | nil => exact absurd ((queues.used.empty_iff (by decide)).2 rfl) some_
  | cons h done =>
    have front := queues.used.front
    obtain ⟨u, r, idx, at_, head, working⟩ := (queues.mem h).1
      (mem_append_right _ (mem_append_right _ mem_cons_self))
    have formatted := (inv.fits u).formatted r idx (At.submitted_request at_)
    have status := queues.status h mem_cons_self
    refine ⟨u, r, idx, at_, head.trans front.symm, working, ?_⟩
    have info := formatted.info
    rw [head] at info
    simp only [Disk.complete, front, status, info, ne_eq, not_true_eq_false, if_false]

/-- A round of `virtio_disk_intr`. -/
theorem Inv.complete (here : s.pc t = .scan) (d : Disk B) (eq : s.disk.complete = .ok d)
    (some_ : s.disk.used.head ≠ s.disk.used.tail) : (s.setDisk d).Inv blockno := by
  obtain ⟨u, r, idx, at_, head, working, ok⟩ := inv.complete_eq some_
  obtain rfl : d = _ := Except.ok.inj (eq.symm.trans ok)
  have buf := (At.submitted_chain at_).2
  have disk (v : T) (b : B) (other : v ≠ u) (yours : (s.pc v).buf = some b) :
      update s.disk.disk r.b false b = s.disk.disk b :=
    update_of_ne (inv.buf_ne buf yours other) ..
  have goes : Goes t .scan s (s.setDisk { s.disk with
      disk := update s.disk.disk r.b false, used := s.disk.used.pop uint16 }) := by
    refine inv.goes here rfl (by rw [← here, update_eq_self]; rfl) (fun _ _ _ held => held)
      (fun _ _ _ _ => ⟨rfl, rfl, rfl, rfl⟩) fun v b _ yours out => ?_
    refine disk v b ?_ yours
    rintro rfl
    rw [out] at at_
    cases at_
  refine inv.hold here rfl goes rfl rfl rfl rfl rfl rfl (.out rfl rfl) ?_
  obtain ⟨waiting, done, queues⟩ := inv.queues
  cases done with
  | nil => exact absurd ((queues.used.empty_iff (by decide)).2 rfl) some_
  | cons h done =>
    have moved : Perm (waiting ++ (s.busy ++ h :: done)) (h :: (waiting ++ (s.busy ++ done))) := by
      rw [← append_assoc, ← append_assoc]
      exact perm_middle
    have distinct := moved.nodup_iff.1 queues.distinct
    obtain ⟨fresh, distinct⟩ := nodup_cons.1 distinct
    have head : idx.i₀ = h := head.trans queues.used.front
    refine ⟨waiting, done, queues.avail, queues.used.pop (by decide), distinct, fun i => ?_,
      fun i mem => queues.status i (mem_cons_of_mem h mem)⟩
    have pending := queues.mem i
    rw [moved.mem_iff, mem_cons] at pending
    constructor
    · intro mem
      obtain ⟨v, r', idx', there, rfl, working'⟩ := pending.1 (.inr mem)
      have other : v ≠ u := by
        rintro rfl
        rw [at_] at there
        cases there
        rw [head] at mem
        exact fresh mem
      refine ⟨v, r', idx', there, rfl, ?_⟩
      exact (disk v r'.b other (At.submitted_chain there).2).trans working'
    · rintro ⟨v, r', idx', there, rfl, working'⟩
      have working' : update s.disk.disk r.b false r'.b = true := working'
      have there : (s.pc v).submitted = some (r', idx') := there
      have other : v ≠ u := by
        rintro rfl
        rw [at_] at there
        cases there
        rw [update_self] at working'
        cases working'
      rw [disk v r'.b other (At.submitted_chain there).2] at working'
      refine (pending.2 ⟨v, r', idx', there, rfl, working'⟩).resolve_left fun same => ?_
      refine other (inv.apart u v h ?_ ?_)
      · rw [← head]
        exact (At.submitted_chain at_).1
      · rw [← same]
        exact (At.submitted_chain there).1

section

omit [DecidableEq T] [DecidableEq B]

/-- A step of the device: the threads stay where they are, and know what they knew. -/
theorem Inv.device {d : Disk B} {busy : List Nat}
    (keeps : ∀ u, s.disk.Keeps d (s.pc u)) (free : d.free = s.disk.free)
    (queues : ∃ waiting done, Queues { s.setDisk d with busy := busy } waiting done) :
    Inv blockno { s.setDisk d with busy := busy } := by
  refine ⟨inv.panic, inv.lock, inv.owner, fun u => (inv.fits u).keep (keeps u), inv.apart,
    fun i bound taken => inv.claimed i bound ?_, queues⟩
  exact (congrFun free i).symm.trans taken

theorem Inv.take (some_ : s.disk.avail.head ≠ s.disk.avail.tail) :
    Inv blockno { s.setDisk { s.disk with avail := s.disk.avail.pop uint16 } with
      busy := s.disk.avail.front num :: s.busy } := by
  refine inv.device (fun u => ⟨fun _ _ => rfl, fun _ _ => rfl, fun _ _ => rfl, fun _ _ => rfl,
    fun _ _ _ => rfl, fun _ _ _ => rfl⟩) rfl ?_
  obtain ⟨waiting, done, queues⟩ := inv.queues
  cases waiting with
  | nil => exact absurd ((queues.avail.empty_iff (by decide)).2 rfl) some_
  | cons h waiting =>
    have front := queues.avail.front
    have moved : Perm (waiting ++ (h :: s.busy ++ done)) (h :: waiting ++ (s.busy ++ done)) :=
      perm_middle
    refine ⟨waiting, done, queues.avail.pop (by decide), queues.used, ?_, fun i => ?_,
      queues.status⟩
    · change (waiting ++ (s.disk.avail.front num :: s.busy ++ done)).Nodup
      rw [front]
      exact moved.nodup_iff.2 queues.distinct
    · change i ∈ waiting ++ (s.disk.avail.front num :: s.busy ++ done) ↔ _
      rw [front]
      exact moved.mem_iff.trans (queues.mem i)

theorem Inv.answer {i : Nat} (mem : i ∈ s.busy) :
    Inv blockno { s.setDisk (s.disk.answer i) with busy := s.busy.erase i } := by
  obtain ⟨waiting, done, queues⟩ := inv.queues
  obtain ⟨u, r, idx, at_, rfl, working⟩ := (queues.mem i).1
    (mem_append_right _ (mem_append_left _ mem))
  have formatted := (inv.fits u).formatted r idx (At.submitted_request at_)
  have answer : s.disk.answer idx.i₀ = { s.disk with
      info := update s.disk.info idx.i₀ { s.disk.info idx.i₀ with status := 0 }
      used := s.disk.used.push num uint16 idx.i₀ } := by
    simp only [Disk.answer, formatted.first, formatted.second, formatted.third]
  have info (j : Nat) : update s.disk.info idx.i₀ { s.disk.info idx.i₀ with status := 0 } j =
      if j = idx.i₀ then { s.disk.info idx.i₀ with status := 0 } else s.disk.info j :=
    update_apply ..
  rw [answer]
  refine inv.device (fun v => ⟨fun _ _ => rfl, fun _ _ => rfl, fun _ _ => rfl, fun j _ => ?_,
    fun _ _ _ => rfl, fun _ _ _ => rfl⟩) rfl ?_
  · simp only [info]
    split_ifs with same
    · rw [same]
    · rfl
  · have moved : Perm (waiting ++ (s.busy.erase idx.i₀ ++ (done ++ [idx.i₀])))
        (waiting ++ (s.busy ++ done)) := by
      refine Perm.append_left waiting ?_
      have last : Perm (done ++ [idx.i₀]) ([idx.i₀] ++ done) := perm_append_comm
      refine (last.append_left _).trans ?_
      rw [← append_assoc]
      refine Perm.append_right done ?_
      exact perm_append_comm.trans (perm_cons_erase mem).symm
    have room : done.length < num := by
      have length := queues.length_le inv
      have some_ := length_pos_of_mem mem
      simp only [length_append] at length
      omega
    refine ⟨waiting, done ++ [idx.i₀], queues.avail, queues.used.push (by decide) room,
      moved.nodup_iff.2 queues.distinct, fun j => moved.mem_iff.trans (queues.mem j),
      fun j last => ?_⟩
    change (update s.disk.info idx.i₀ { s.disk.info idx.i₀ with status := 0 } j).status = 0
    rw [info]
    split_ifs with same
    · rfl
    · refine queues.status j ((mem_append.1 last).resolve_right fun new => ?_)
      exact same (mem_singleton.1 new)

end

theorem Inv.rw_ (idle : s.pc t = .idle) (free : s.owner r.b = none) :
    Inv blockno { s.goto t (.start r) with owner := update s.owner r.b (some t) } := by
  refine inv.move (a := .start r) idle rfl (fun u other held => held) (fun u b other yours => ?_)
    rfl rfl rfl (by rintro ⟨⟩) (fun b at_ => ?_) rfl (.out rfl rfl) fun r' idx' working => Iff.rfl
  · refine (update_of_ne ?_ ..).trans yours
    rintro rfl
    rw [free] at yours
    cases yours
  · obtain rfl : r.b = b := some.inj at_
    exact update_self ..

omit [DecidableEq B] in
theorem Inv.intr (idle : s.pc t = .idle) : (s.goto t .intr).Inv blockno :=
  inv.move idle rfl (fun u other held => held) (fun u b other held => held) rfl rfl rfl
    (by rintro ⟨⟩) (by rintro b ⟨⟩) rfl (.out rfl rfl) fun r idx working => Iff.rfl

theorem Inv.run (eq : s.run blockno t = some s') : s'.Inv blockno := by
  unfold System.run at eq
  split at eq
  case h_1 => cases eq
  case h_2 r here =>
    split_ifs at eq with free
    cases eq
    exact inv.acquire here free rfl rfl (.out rfl rfl) rfl
  case h_3 r here =>
    cases eq
    obtain ⟨idx, ok, spare⟩ | ⟨is, ok, spare⟩ := s.disk.alloc3Desc_spec
    · simp only [orPanic, ok]
      exact inv.alloc here spare
    · simp only [orPanic, ok]
      exact inv.exhausted here spare
  case h_4 r idx here =>
    cases eq
    exact inv.format here
  case h_5 r idx here =>
    cases eq
    exact inv.ring here
  case h_6 r idx here =>
    cases eq
    exact inv.bump here
  case h_7 r idx here =>
    split_ifs at eq with working
    · cases eq
      exact inv.leave here rfl rfl (fun b at_ => at_) rfl (inv.submit here rfl).2.1 rfl
    · cases eq
      exact inv.waited here (by simpa using working)
  case h_8 r idx here =>
    split_ifs at eq with free
    cases eq
    exact inv.acquire here free rfl rfl (inv.submit here rfl).1 rfl
  case h_9 r idx here =>
    cases eq
    have ok := inv.finish_eq here
    simp only [orPanic, ok]
    exact inv.finish here _ ok
  case h_10 here =>
    split_ifs at eq with free
    cases eq
    exact inv.acquire here free rfl rfl (.out rfl rfl) rfl
  case h_11 here =>
    split_ifs at eq with some_
    · cases eq
      obtain ⟨u, r, idx, -, -, -, ok⟩ := inv.complete_eq some_
      simp only [orPanic, ok]
      exact inv.complete here _ ok some_
    · cases eq
      exact inv.leave here rfl rfl (by rintro b ⟨⟩) rfl (.out rfl rfl) rfl

end

theorem Inv.step (inv : s.Inv blockno) (eq : s.step blockno l = some s') : s'.Inv blockno := by
  unfold System.step at eq
  rw [if_neg (by simp [inv.panic])] at eq
  cases l with
  | rw t r =>
    simp only at eq
    split_ifs at eq with idle
    cases eq
    exact inv.rw_ idle.1 idle.2
  | intr t =>
    simp only at eq
    split_ifs at eq with idle
    cases eq
    exact inv.intr idle
  | run t => exact inv.run eq
  | take =>
    simp only at eq
    split_ifs at eq with some_
    cases eq
    exact inv.take some_
  | answer i =>
    simp only at eq
    split_ifs at eq with mem
    cases eq
    exact inv.answer mem

theorem Reachable.inv (reach : s.Reachable blockno) : s.Inv blockno := by
  obtain ⟨run, runs⟩ := reach
  exact Transitions.run_invariant (Inv blockno) (fun _ _ _ inv taken => inv.step taken) .boot runs

/-- A step of the system writes no entry of the `avail` ring that the device has not seen. -/
theorem Inv.unseen (inv : s.Inv blockno) (eq : s.step blockno l = some s') {k : Nat}
    (bound : k < (s.disk.avail.tail + uint16 - s.disk.avail.head) % uint16) :
    s'.disk.avail.data ((s.disk.avail.head + k) % num) =
      s.disk.avail.data ((s.disk.avail.head + k) % num) := by
  obtain ⟨waiting, done, queues⟩ := inv.queues
  rw [queues.avail.length (by decide)] at bound
  unfold System.step at eq
  rw [if_neg (by simp [inv.panic])] at eq
  cases l with
  | rw t r | intr t | take | answer i =>
    simp only at eq
    split_ifs at eq
    cases eq
    rfl
  | run t =>
    simp only [System.run] at eq
    split at eq
    case h_5 r idx here =>
      cases eq
      obtain ⟨-, room⟩ := queues.room inv here idx.head_mem rfl
      exact update_of_ne (queues.avail.tail_ne (by decide) room bound) ..
    case h_3 r here =>
      cases eq
      obtain ⟨idx, ok, -⟩ | ⟨is, ok, -⟩ := s.disk.alloc3Desc_spec <;>
        simp only [orPanic, ok] <;> rfl
    case h_9 r idx here =>
      cases eq
      simp only [orPanic, inv.finish_eq here]
      rfl
    case h_11 here =>
      split_ifs at eq with some_
      · cases eq
        obtain ⟨u, r, idx, -, -, -, ok⟩ := inv.complete_eq some_
        simp only [orPanic, ok]
        rfl
      · cases eq
        rfl
    all_goals
      try split_ifs at eq
      all_goals
        cases eq
        try rfl

end Steps

end System

/-- In every state that threads, interrupts and the device reach: the driver has not panicked;
every descriptor is free or belongs to the chain of one thread, and chains have three distinct
descriptors; `alloc3_desc` leaves the free descriptors as they were when it fails; no step writes
an entry of the `avail` ring that the device has not seen; the requests whose buffers are in use
are, each once, in the `avail` ring, with the device or in the `used` ring; and a completion clears
`disk` of the buffer of the request it belongs to, and of no other buffer. -/
theorem virtio_requests [DecidableEq T] [DecidableEq B] (reach : s.Reachable blockno) :
    s.panic = none ∧
    (∀ i, i < num → s.disk.free i = false → ∃! t, i ∈ (s.pc t).chain) ∧
    (∀ t, (s.pc t).chain.Nodup ∧ ∀ i ∈ (s.pc t).chain, i < num ∧ s.disk.free i = false) ∧
    (∀ d, s.disk.alloc3Desc = .ok (none, d) → d.free = s.disk.free) ∧
    (∀ l s', s.step blockno l = some s' →
      ∀ k, k < (s.disk.avail.tail + uint16 - s.disk.avail.head) % uint16 →
        s'.disk.avail.data ((s.disk.avail.head + k) % num) =
          s.disk.avail.data ((s.disk.avail.head + k) % num)) ∧
    (∃ waiting done, s.disk.avail.Holds num uint16 waiting ∧ s.disk.used.Holds num uint16 done ∧
      (waiting ++ (s.busy ++ done)).Nodup ∧
      ∀ h, h ∈ waiting ++ (s.busy ++ done) ↔ s.Pending h) ∧
    (∀ t s', s.pc t = .scan → s.disk.used.head ≠ s.disk.used.tail →
      s.step blockno (.run t) = some s' → ∃ u r idx, (s.pc u).submitted = some (r, idx) ∧
        idx.i₀ = s.disk.used.front num ∧ s.disk.disk r.b = true ∧
        s'.disk.disk = Function.update s.disk.disk r.b false) := by
  have inv := reach.inv
  obtain ⟨waiting, done, queues⟩ := inv.queues
  refine ⟨inv.panic, fun i bound taken => ?_, fun t => ⟨(inv.fits t).distinct, (inv.fits t).taken⟩,
    fun d failed => ?_, fun l s' eq k bound => inv.unseen eq bound,
    ⟨waiting, done, queues.avail, queues.used, queues.distinct, queues.mem⟩,
    fun t s' here some_ eq => ?_⟩
  · obtain ⟨t, mem⟩ := inv.claimed i bound taken
    exact ⟨t, mem, fun u yours => inv.apart t u i mem yours⟩
  · obtain ⟨idx, ok, -⟩ | ⟨is, ok, spare⟩ := s.disk.alloc3Desc_spec
    · rw [failed] at ok
      cases ok
    · obtain ⟨-, rfl⟩ := Prod.mk.inj (Except.ok.inj (failed.symm.trans ok))
      exact spare.free
  · obtain ⟨u, r, idx, at_, head, working, ok⟩ := inv.complete_eq some_
    refine ⟨u, r, idx, at_, head, working, ?_⟩
    simp only [System.step, inv.panic, isSome_none, Bool.false_eq_true, if_false, System.run,
      here, some_, ne_eq, not_false_eq_true, if_true, System.orPanic, ok] at eq
    cases eq
    rfl

/-- A thread submits a request, the device answers it, and the interrupt handler is about to see
the answer. -/
def answeredRun (t u : T) (r : Req B) : List (Step T B) :=
  [.rw t r] ++ List.replicate 6 (.run t) ++ [.take, .answer 0, .intr u, .run u]

theorem virtio_requests_answered : ∃ s : System Bool Nat, s.Reachable (fun b => b) ∧
    s.pc false = .scan ∧ s.disk.used.head ≠ s.disk.used.tail ∧ s.panic = none := by
  exact Transitions.exists_reached (answeredRun true false ⟨7, true⟩)
    (fun s => s.pc false = .scan ∧ s.disk.used.head ≠ s.disk.used.tail) (by decide +kernel)
    fun s reach ⟨scan, more⟩ => ⟨scan, more, (virtio_requests reach).1⟩

end Xv6.Virtio
