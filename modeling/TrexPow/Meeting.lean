import TrexPow.Trail

/-!
# Where a search meets itself

Both solvers follow one walk with a slow and a fast state. After `i` passes of the first
loop these are the `i`-th and the `2 * i`-th state of the walk, and the second loop moves
both on together. The solutions that a solver reports are those of the states at the
first distinguished point of the second loop.
-/

namespace TrexPow

/-- The invariant of both loops of a solver. -/
structure Race.OnWalk (key : PublicKey) (before : Compute) (r : Race Compute) : Prop where
  onWalk1 : r.state1.OnWalk key
  onWalk2 : r.state2.OnWalk key
  header : SameHeader before r.compute

/-- The bound of both loops, as a number of passes. -/
def PublicKey.passes (key : PublicKey) : ℕ := key.p.toNat.sqrt * searchLenFactor

theorem PublicKey.Sound.searchLen_eq {key : PublicKey} (hkey : key.Sound) :
    key.searchLen = .ok key.passes :=
  PublicKey.searchLen_ok (by linarith [hkey.three_le] : 0 ≤ key.p)

section Meeting

variable [Deps]

/-- The states of a search have made so many steps of the walk, and its header computers
differ from the given one in the nonce only. -/
structure Race.At (header : Compute) (start : State ℤ) (i₁ i₂ : ℕ) (r : Race Compute) : Prop where
  state1_eq : r.state1 = start.walkAt header i₁
  state2_eq : r.state2 = start.walkAt header i₂
  header1 : SameHeader header r.compute
  header2 : SameHeader header r.compute2

/-- The works of the two states have not met before pass `i` of the first loop. -/
def ApartBefore (header : Compute) (start : State ℤ) (i : ℕ) : Prop :=
  ∀ k, 0 < k → k < i → (start.walkAt header k).work ≠ (start.walkAt header (2 * k)).work

/-- The first state has been at no distinguished point before pass `j` of the second loop. -/
def NoPointBefore (header : Compute) (start : State ℤ) (hashDiff : U256) (i j : ℕ) : Prop :=
  ∀ k, 0 < k → k < j → (start.walkAt header (i + k)).overflowed hashDiff = true

/-- The first loop ends with pass `i`, because the works meet there or because it is the
last one. The second loop ends with pass `j`, which is the first at a distinguished
point, and there the works agree and the solutions differ. -/
structure Meeting (header : Compute) (start : State ℤ) (n : ℕ) (hashDiff : U256) (i j : ℕ) :
    Prop where
  apart : ApartBefore header start i
  ended : i = n ∨ 0 < i ∧ i ≤ n ∧
    (start.walkAt header i).work = (start.walkAt header (2 * i)).work
  second_pos : 0 < j
  second_le : j ≤ n
  no_point : NoPointBefore header start hashDiff i j
  point : (start.walkAt header (i + j)).overflowed hashDiff = false
  work_eq : (start.walkAt header (i + j)).work = (start.walkAt header (2 * i + j)).work
  differ : (start.walkAt header (i + j)).solution ≠ (start.walkAt header (2 * i + j)).solution

/-- Solutions that a solver reports come from a meeting, and the header computer holds
the nonce of the first state there. -/
def ReportsMeeting (header : Compute) (start : State ℤ) (n : ℕ) (hashDiff : U256)
    (solutions : Option (Solutions ℤ)) (after : Compute) : Prop :=
  ∀ found, solutions = some found → ∃ i j, Meeting header start n hashDiff i j ∧
    found = ((start.walkAt header (i + j)).solution, (start.walkAt header (2 * i + j)).solution) ∧
    after = header.at (start.walkAt header (i + j)).nonce

variable {key : PublicKey} {header : Compute} {start : State ℤ} {n : ℕ} {hashDiff : U256}

theorem reportsMeeting_none {after : Compute} :
    ReportsMeeting header start n hashDiff none after := by
  intro found hfound
  cases hfound

/-- A step along the walk. -/
theorem State.OnWalk.transit_walkAt (hkey : key.Sound) {state : State ℤ} {k : ℕ}
    (hwalk : state.OnWalk key) (hstate : state = start.walkAt header k) {compute : Compute}
    (hsame : SameHeader header compute) :
    state.transit compute =
      .ok (start.walkAt header (k + 1), header.at (start.walkAt header (k + 1)).nonce) := by
  rw [hwalk.transit_eq hkey, hsame.succ_eq, hsame.at_eq, State.walkAt_succ_nonce,
    State.walkAt_succ, hstate]

/-- A search stays on the walk on which it starts. -/
theorem Race.At.onWalk (hkey : key.Sound) (hstart : start.OnWalk key) {i₁ i₂ : ℕ}
    {r : Race Compute} (hr : r.At header start i₁ i₂) : r.OnWalk key header := by
  refine ⟨?_, ?_, hr.header1⟩
  · rw [hr.state1_eq]
    exact hstart.walkAt hkey header i₁
  · rw [hr.state2_eq]
    exact hstart.walkAt hkey header i₂

/-- The search after `i` passes of the first loop that have not met. -/
structure FirstLoop (header : Compute) (start : State ℤ) (i : ℕ) (r : Race Compute) : Prop where
  at_pass : r.At header start i (2 * i)
  apart : ApartBefore header start (i + 1)

/-- The search that pass `i` of the first loop has left with a meeting. -/
structure FirstMet (header : Compute) (start : State ℤ) (i : ℕ) (r : Race Compute) : Prop where
  at_pass : r.At header start i (2 * i)
  apart : ApartBefore header start i
  met : (start.walkAt header i).work = (start.walkAt header (2 * i)).work

/-- The search after `j` passes of the second loop. -/
structure SecondLoop (header : Compute) (start : State ℤ) (n : ℕ) (hashDiff : U256) (i j : ℕ)
    (r : Race Compute) : Prop where
  at_pass : r.At header start (i + j) (2 * i + j)
  apart : ApartBefore header start i
  ended : i = n ∨ 0 < i ∧ i ≤ n ∧
    (start.walkAt header i).work = (start.walkAt header (2 * i)).work
  no_point : NoPointBefore header start hashDiff i (j + 1)

theorem ApartBefore.succ {i : ℕ} (h : ApartBefore header start i)
    (hne : (start.walkAt header i).work ≠ (start.walkAt header (2 * i)).work) :
    ApartBefore header start (i + 1) := by
  intro k hpos hlt
  by_cases hk : k < i
  · exact h k hpos hk
  · obtain rfl : k = i := by omega
    exact hne

theorem NoPointBefore.succ {i j : ℕ} (h : NoPointBefore header start hashDiff i j)
    (hover : (start.walkAt header (i + j)).overflowed hashDiff = true) :
    NoPointBefore header start hashDiff i (j + 1) := by
  intro k hpos hlt
  by_cases hk : k < j
  · exact h k hpos hk
  · obtain rfl : k = j := by omega
    exact hover

/-- Both states stand at the start of the walk. -/
theorem firstLoop_start (header : Compute) (start : State ℤ) :
    FirstLoop header start 0 ⟨start, start, header, header⟩ := by
  refine ⟨⟨rfl, rfl, ⟨rfl, rfl⟩, ⟨rfl, rfl⟩⟩, ?_⟩
  intro k hpos hlt
  omega

/-- The second loop starts where the first has run out of passes. -/
theorem FirstLoop.second {r : Race Compute} (h : FirstLoop header start n r) :
    SecondLoop header start n hashDiff n 0 r := by
  refine ⟨h.at_pass, ?_, Or.inl rfl, ?_⟩
  · intro k hpos hlt
    exact h.apart k hpos (by omega)
  · intro k hpos hlt
    omega

/-- The second loop starts where the first has met. -/
theorem FirstMet.second {i : ℕ} {r : Race Compute} (hpos : 0 < i) (hle : i ≤ n)
    (h : FirstMet header start i r) : SecondLoop header start n hashDiff i 0 r := by
  refine ⟨h.at_pass, h.apart, Or.inr ⟨hpos, hle, h.met⟩, ?_⟩
  intro k hpos hlt
  omega

/-- What one pass of the first loop moves. -/
theorem Race.At.first_moves (hkey : key.Sound) (hstart : start.OnWalk key) {i : ℕ}
    {r : Race Compute} (hr : r.At header start i (2 * i)) :
    ∃ compute compute2 compute2', r.state1.transit r.compute =
        .ok (start.walkAt header (i + 1), compute) ∧
      r.state2.transit r.compute2 = .ok (start.walkAt header (2 * i + 1), compute2) ∧
      (start.walkAt header (2 * i + 1)).transit compute2 =
        .ok (start.walkAt header (2 * (i + 1)), compute2') ∧
      SameHeader header compute ∧ SameHeader header compute2' := by
  have hwalk := hr.onWalk hkey hstart
  have hmove1 := hwalk.onWalk1.transit_walkAt hkey hr.state1_eq hr.header1
  have hmove2 := hwalk.onWalk2.transit_walkAt hkey hr.state2_eq hr.header2
  have hmove3 := (hstart.walkAt hkey header (2 * i + 1)).transit_walkAt hkey rfl
    (sameHeader_at header (start.walkAt header (2 * i + 1)).nonce)
  exact ⟨_, _, _, hmove1, hmove2, hmove3, sameHeader_at .., sameHeader_at ..⟩

/-- What one pass of the second loop moves. -/
theorem Race.At.second_moves (hkey : key.Sound) (hstart : start.OnWalk key) {i₁ i₂ : ℕ}
    {r : Race Compute} (hr : r.At header start i₁ i₂) :
    ∃ compute2, r.state1.transit r.compute = .ok (start.walkAt header (i₁ + 1),
        header.at (start.walkAt header (i₁ + 1)).nonce) ∧
      r.state2.transit r.compute2 = .ok (start.walkAt header (i₂ + 1), compute2) ∧
      SameHeader header compute2 := by
  have hwalk := hr.onWalk hkey hstart
  have hmove1 := hwalk.onWalk1.transit_walkAt hkey hr.state1_eq hr.header1
  have hmove2 := hwalk.onWalk2.transit_walkAt hkey hr.state2_eq hr.header2
  exact ⟨_, hmove1, hmove2, sameHeader_at ..⟩

/-- One pass of the first loop of `solve`. -/
theorem solvePass_spec (hkey : key.Sound) (hstart : start.OnWalk key) {i : ℕ} {r : Race Compute}
    (hr : FirstLoop header start i r) :
    ∃ c, solvePass r = .ok c ∧ c.Satisfies (FirstLoop header start (i + 1))
      (FirstMet header start (i + 1))
      (fun result => ReportsMeeting header start n hashDiff result.1 result.2) := by
  obtain ⟨compute, compute2, compute2', hmove1, hmove2, hmove3, hheader1, hheader2⟩ :=
    hr.at_pass.first_moves hkey hstart
  simp only [solvePass, hmove1, hmove2, hmove3, Rust.ok_bind, Rust.pure_eq_ok]
  split_ifs with hmet
  · exact ⟨_, rfl, ⟨rfl, rfl, hheader1, hheader2⟩, hr.apart, hmet⟩
  · exact ⟨_, rfl, reportsMeeting_none⟩
  · exact ⟨_, rfl, ⟨rfl, rfl, hheader1, hheader2⟩, hr.apart.succ hmet⟩

/-- A distinguished point in pass `j + 1` of the second loop is reported if the works agree
and the solutions differ. -/
theorem SecondLoop.reports {i j : ℕ} {r : Race Compute}
    (hr : SecondLoop header start n hashDiff i j r) (hj : j < n)
    (hpoint : (start.walkAt header (i + j + 1)).overflowed hashDiff = false)
    (hmatch : (start.walkAt header (i + j + 1)).work = (start.walkAt header (2 * i + j + 1)).work ∧
      (start.walkAt header (i + j + 1)).solution ≠ (start.walkAt header (2 * i + j + 1)).solution) :
    ReportsMeeting header start n hashDiff
      (some ((start.walkAt header (i + j + 1)).solution,
        (start.walkAt header (2 * i + j + 1)).solution))
      (header.at (start.walkAt header (i + j + 1)).nonce) := by
  intro found hfound
  refine ⟨i, j + 1, ⟨hr.apart, hr.ended, Nat.succ_pos j, hj, hr.no_point, hpoint, hmatch.1,
    hmatch.2⟩, (Option.some.inj hfound).symm, rfl⟩

/-- One pass of the second loop of `solve`. -/
theorem solveNoncePass_spec (hkey : key.Sound) (hstart : start.OnWalk key) {i j : ℕ} (hj : j < n)
    {r : Race Compute} (hr : SecondLoop header start n hashDiff i j r) :
    ∃ c, solveNoncePass hashDiff r = .ok c ∧
      c.Satisfies (SecondLoop header start n hashDiff i (j + 1)) (fun _ => True)
        (fun result => ReportsMeeting header start n hashDiff result.1 result.2) := by
  obtain ⟨compute2, hmove1, hmove2, hheader2⟩ := hr.at_pass.second_moves hkey hstart
  simp only [solveNoncePass, hmove1, hmove2, Rust.ok_bind, Rust.pure_eq_ok]
  split_ifs with hpoint hmatch
  · rw [Bool.not_eq_true'] at hpoint
    exact ⟨_, rfl, hr.reports hj hpoint hmatch⟩
  · exact ⟨_, rfl, reportsMeeting_none⟩
  · rw [Bool.not_eq_true', Bool.not_eq_false] at hpoint
    exact ⟨_, rfl, ⟨rfl, rfl, sameHeader_at .., hheader2⟩, hr.apart, hr.ended,
      hr.no_point.succ hpoint⟩

/-- One pass of the first loop of `solve_dist`, whatever the flag shows. -/
theorem solveDistPass_spec (hkey : key.Sound) (hstart : start.OnWalk key) (flag : ℕ → Bool)
    (grainSize : ℕ) {i : ℕ} {r : DistRace Compute} (hr : FirstLoop header start i r.toRace) :
    ∃ c, solveDistPass flag grainSize r = .ok c ∧
      c.Satisfies (fun r => FirstLoop header start (i + 1) r.toRace)
        (fun r => FirstMet header start (i + 1) r.toRace)
        (fun result => ReportsMeeting header start n hashDiff result.solutions result.compute) := by
  obtain ⟨compute, compute2, compute2', hmove1, hmove2, hmove3, hheader1, hheader2⟩ :=
    hr.at_pass.first_moves hkey hstart
  simp only [solveDistPass, hmove1, hmove2, hmove3, Rust.ok_bind, Rust.pure_eq_ok]
  cases pollFlag flag grainSize r.counter r.loads with
  | none => exact ⟨_, rfl, reportsMeeting_none⟩
  | some polled =>
    obtain ⟨counter, loads⟩ := polled
    dsimp only
    split_ifs with hmet
    · exact ⟨_, rfl, ⟨rfl, rfl, hheader1, hheader2⟩, hr.apart, hmet⟩
    · exact ⟨_, rfl, reportsMeeting_none⟩
    · exact ⟨_, rfl, ⟨rfl, rfl, hheader1, hheader2⟩, hr.apart.succ hmet⟩

/-- One pass of the second loop of `solve_dist`, whatever the flag shows. -/
theorem solveDistNoncePass_spec (hkey : key.Sound) (hstart : start.OnWalk key)
    (flag : ℕ → Bool) (grainSize : ℕ) {i j : ℕ} (hj : j < n) {r : DistRace Compute}
    (hr : SecondLoop header start n hashDiff i j r.toRace) :
    ∃ c, solveDistNoncePass flag grainSize hashDiff r = .ok c ∧
      c.Satisfies (fun r => SecondLoop header start n hashDiff i (j + 1) r.toRace)
        (fun _ => True)
        (fun result => ReportsMeeting header start n hashDiff result.solutions result.compute) := by
  obtain ⟨compute2, hmove1, hmove2, hheader2⟩ := hr.at_pass.second_moves hkey hstart
  simp only [solveDistNoncePass, hmove1, hmove2, Rust.ok_bind, Rust.pure_eq_ok]
  cases pollFlag flag grainSize r.counter r.loads with
  | none => exact ⟨_, rfl, reportsMeeting_none⟩
  | some polled =>
    obtain ⟨counter, loads⟩ := polled
    dsimp only
    split_ifs with hpoint _ hmatch
    · exact ⟨_, rfl, reportsMeeting_none⟩
    · rw [Bool.not_eq_true'] at hpoint
      exact ⟨_, rfl, hr.reports hj hpoint hmatch⟩
    · exact ⟨_, rfl, reportsMeeting_none⟩
    · rw [Bool.not_eq_true', Bool.not_eq_false] at hpoint
      exact ⟨_, rfl, ⟨rfl, rfl, sameHeader_at .., hheader2⟩, hr.apart, hr.ended,
        hr.no_point.succ hpoint⟩

/-- The single-threaded solver terminates without a panic, and what it reports is where
its walk meets itself. -/
theorem solve_meets (hrand : RandomInRange) (hkey : key.Sound) (hbits : 18 ≤ key.bitLength.toNat)
    (header : Compute) (seed : ℤ) :
    ∃ start hashDiff result, State.fromPubKey key seed = .ok start ∧ start.OnWalk key ∧
      key.hashDiff = .ok hashDiff ∧ solve key header seed = .ok result ∧
      ReportsMeeting header start key.passes hashDiff result.1 result.2 := by
  obtain ⟨start, hstate, hstart⟩ := State.fromPubKey_spec hrand hkey seed
  obtain ⟨hashDiff, htester⟩ := PublicKey.hashDiff_ok hbits
  have hlen := hkey.searchLen_eq
  refine ⟨start, hashDiff, ?_⟩
  rcases Loop.bounded_seq_counted
      (fun i _ r hr => solvePass_spec hkey hstart hr)
      (fun r hr => FirstLoop.second hr)
      (fun i r hpos hle hr => FirstMet.second hpos hle hr)
      (fun i j hj r hr => solveNoncePass_spec hkey hstart hj hr)
      (firstLoop_start header start) with
    ⟨result, hfirst, hreports⟩ | ⟨r, hfirst, ⟨result, hsecond, hreports⟩ | ⟨r', hsecond⟩⟩
  · exact ⟨result, hstate, hstart, htester, by simp [solve, hstate, hlen, hfirst], hreports⟩
  · exact ⟨result, hstate, hstart, htester,
      by simp [solve, hstate, hlen, hfirst, htester, hsecond], hreports⟩
  · exact ⟨(none, r'.compute), hstate, hstart, htester,
      by simp [solve, hstate, hlen, hfirst, htester, hsecond], reportsMeeting_none⟩

/-- The cancellable solver terminates without a panic whatever the flag shows, and what
it reports is where its walk meets itself. -/
theorem solveDist_meets (hrand : RandomInRange) (hkey : key.Sound)
    (hbits : 18 ≤ key.bitLength.toNat) (header : Compute) (seed : ℤ) (grainSize : ℕ)
    (flag : ℕ → Bool) :
    ∃ start hashDiff result, State.fromPubKey key seed = .ok start ∧ start.OnWalk key ∧
      key.hashDiff = .ok hashDiff ∧ solveDist key header seed grainSize flag = .ok result ∧
      ReportsMeeting header start key.passes hashDiff result.solutions result.compute := by
  obtain ⟨start, hstate, hstart⟩ := State.fromPubKey_spec hrand hkey seed
  obtain ⟨hashDiff, htester⟩ := PublicKey.hashDiff_ok hbits
  have hlen := hkey.searchLen_eq
  have hbegin : FirstLoop header start 0
      (⟨⟨start, start, header, header⟩, 0, 0⟩ : DistRace Compute).toRace :=
    firstLoop_start header start
  have hend (r : DistRace Compute) (hr : FirstLoop header start key.passes r.toRace) :
      SecondLoop header start key.passes hashDiff key.passes 0
        ({ r with counter := 0 } : DistRace Compute).toRace := hr.second
  have hleave (i : ℕ) (r : DistRace Compute) (hpos : 0 < i) (hle : i ≤ key.passes)
      (hr : FirstMet header start i r.toRace) : SecondLoop header start key.passes hashDiff i 0
        ({ r with counter := 0 } : DistRace Compute).toRace := hr.second hpos hle
  have hnoncePass (i j : ℕ) (hj : j < key.passes) (r : DistRace Compute)
      (hr : SecondLoop header start key.passes hashDiff i j r.toRace) :=
    solveDistNoncePass_spec hkey hstart flag grainSize hj hr
  refine ⟨start, hashDiff, ?_⟩
  rcases Loop.bounded_seq_counted
      (I := fun i (r : DistRace Compute) => FirstLoop header start i r.toRace)
      (fun i _ r hr => solveDistPass_spec hkey hstart flag grainSize hr)
      hend hleave hnoncePass hbegin with
    ⟨result, hfirst, hreports⟩ | ⟨r, hfirst, ⟨result, hsecond, hreports⟩ | ⟨r', hsecond⟩⟩
  · exact ⟨result, hstate, hstart, htester, by simp [solveDist, hstate, hlen, hfirst], hreports⟩
  · exact ⟨result, hstate, hstart, htester,
      by simp [solveDist, hstate, hlen, hfirst, htester, hsecond], hreports⟩
  · exact ⟨⟨none, r'.compute, false⟩, hstate, hstart, htester,
      by simp [solveDist, hstate, hlen, hfirst, htester, hsecond], reportsMeeting_none⟩

end Meeting

end TrexPow
