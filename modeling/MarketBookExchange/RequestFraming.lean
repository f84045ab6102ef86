import MarketBookExchange.ClientRequests

/- Each read of a session is decoded as one frame, however TCP has cut the stream. -/
namespace MarketBookExchange
open BigEndian Outcome

/-- What `readListener` decodes from successive reads. A request that `simpleReject` rejects
    was decoded before that; a malformed read is answered with an error. -/
def decodeReads (w : Widths) : List (List UInt8) → Except Fault (List Order)
  | [] => pure []
  | read :: reads => do
    let decoded ← decodeRequest w read
    let later ← decodeReads w reads
    pure (decoded.toList ++ later)

/-- A way the stream of the requests' frames can arrive: `async_read_some` returns at least
    one byte and at most the size of its buffer. -/
structure Delivery (w : Widths) (requests : List Request) where
  reads : List (List UInt8)
  whole : reads.flatten = (requests.map (Request.frame w)).flatten
  sizes : ∀ read ∈ reads, 1 ≤ read.length ∧ read.length ≤ w.frame

def startsRequest (read : List UInt8) : Bool :=
  read.headD 0 = 'O'.toUInt8 || read.headD 0 = 'U'.toUInt8 || read.headD 0 = 'X'.toUInt8

/-- The reads that begin with one of the three letters bring the requests one by one. -/
def Carries (w : Widths) (requests : List Request) (reads : List (List UInt8)) : Prop :=
  List.Forall₂ (Request.Begins w) requests (reads.filter startsRequest)

section Reads
variable {w : Widths} {read : List UInt8}

theorem decodeRequest_none : decodeRequest w read = .ok none ↔ startsRequest read = false := by
  have present : ∀ x : Except Fault Order, some <$> x ≠ .ok none := by
    intro x run
    cases x <;> cases run
  unfold decodeRequest startsRequest
  generalize read.headD 0 = c
  simp only
  split
  · rename_i letter
    exact iff_of_false (present _) (by simp [letter])
  · rename_i notSend
    split
    · rename_i letter
      exact iff_of_false (present _) (by simp [letter])
    · rename_i notModify
      split
      · rename_i letter
        exact iff_of_false (present _) (by simp [letter])
      · rename_i notKill
        exact iff_of_true rfl (by simp [notSend, notModify, notKill])

theorem decodeReads_cons {reads : List (List UInt8)} {orders : List Order} :
    decodeReads w (read :: reads) = .ok orders ↔
      (decodeRequest w read = .ok none ∧ decodeReads w reads = .ok orders) ∨
      ∃ order later, orders = order :: later ∧ decodeRequest w read = .ok (some order) ∧
        decodeReads w reads = .ok later := by
  rw [decodeReads]
  constructor
  · intro run
    obtain ⟨decoded, here, run⟩ := bind_ok run
    obtain ⟨later, onward, run⟩ := bind_ok run
    cases run
    cases decoded with
    | none => exact Or.inl ⟨here, onward⟩
    | some order => exact Or.inr ⟨order, later, rfl, here, onward⟩
  · rintro (⟨here, onward⟩ | ⟨order, later, rfl, here, onward⟩)
    · rw [here, ok_bind, onward]
      rfl
    · rw [here, ok_bind, onward]
      rfl

/-- The requests come out of the reads one by one exactly if they go in one by one. -/
theorem decodeReads_carries (four : w.FourBytes) (reads : List (List UInt8)) :
    ∀ requests : List Request, (∀ request ∈ requests, request.order.Fits w) →
      (decodeReads w reads = .ok (requests.map Request.order) ↔ Carries w requests reads) := by
  unfold Carries
  induction reads with
  | nil =>
    intro requests _
    cases requests with
    | nil => exact iff_of_true rfl .nil
    | cons request requests => exact iff_of_false (fun run => by cases run) fun h => by cases h
  | cons read reads ih =>
    intro requests fits
    rw [decodeReads_cons]
    cases starts : startsRequest read with
    | false =>
      have nothing : decodeRequest w read = .ok none := decodeRequest_none.mpr starts
      rw [List.filter_cons_of_neg (by simp [starts]), ← ih requests fits, nothing]
      simp
    | true =>
      have something : decodeRequest w read ≠ .ok none := by
        rw [Ne, decodeRequest_none, starts]
        simp
      rw [List.filter_cons_of_pos starts]
      cases requests with
      | nil => exact iff_of_false (by simp [something]) fun h => by cases h
      | cons request requests =>
        rw [List.forall₂_cons, ← Request.decodeRequest_begins four (fits request (by simp)),
          ← ih requests fun r member => fits r (List.mem_cons_of_mem _ member), List.map_cons]
        constructor
        · rintro (⟨absent, _⟩ | ⟨order, later, shape, here, onward⟩)
          · exact absurd absent something
          · cases shape
            exact ⟨here, onward⟩
        · rintro ⟨here, onward⟩
          exact Or.inr ⟨_, _, rfl, here, onward⟩

end Reads

/-- No read crosses the end of a frame, and the first read of a frame covers its fields. -/
def CutInPadding (w : Widths) (requests : List Request) (reads : List (List UInt8)) : Prop :=
  ∃ groups : List (List (List UInt8)), reads = groups.flatten ∧
    List.Forall₂ (fun request group => ∃ read padding, group = read :: padding ∧
      group.flatten = request.frame w ∧ (request.fields w).length ≤ read.length) requests groups

section Cuts
variable {w : Widths}

theorem startsRequest_fields (request : Request) {read : List UInt8}
    (begins : request.fields w <+: read) : startsRequest read = true := by
  obtain ⟨rest, rfl⟩ := begins
  cases request <;> rfl

theorem startsRequest_padding {read : List UInt8} (padding : ∀ b ∈ read, b = ' '.toUInt8) :
    startsRequest read = false := by
  cases read with
  | nil => rfl
  | cons b rest =>
    rw [padding b (by simp)]
    rfl

theorem carries_of_cutInPadding {requests : List Request} {reads : List (List UInt8)}
    (h : CutInPadding w requests reads) : Carries w requests reads := by
  obtain ⟨groups, rfl, cut⟩ := h
  unfold Carries
  induction cut with
  | nil => exact .nil
  | @cons request group requests groups first _ ih =>
    obtain ⟨read, padding, rfl, whole, covers⟩ := first
    rw [List.flatten_cons] at whole
    have begins : request.fields w <+: read := by
      apply List.prefix_of_prefix_length_le _ _ covers
      · exact request.frame w
      · exact ⟨_, rfl⟩
      · exact ⟨_, whole⟩
    obtain ⟨nonempty, rfl⟩ := begins
    rw [Request.frame, padMessage, List.append_assoc] at whole
    have blank : ∀ p ∈ padding, startsRequest p = false := by
      intro p member
      apply startsRequest_padding
      intro b inside
      have later : b ∈ nonempty ++ padding.flatten :=
        List.mem_append_right _ (List.mem_flatten.mpr ⟨p, member, inside⟩)
      rw [List.append_cancel_left whole] at later
      exact List.eq_of_mem_replicate later
    have nothing : padding.filter startsRequest = [] := by
      rw [List.filter_eq_nil_iff]
      intro p member
      rw [blank p member]
      simp
    rw [List.flatten_cons, List.filter_append,
      List.filter_cons_of_pos (startsRequest_fields request ⟨nonempty, rfl⟩), nothing]
    exact .cons ⟨request, rfl, nonempty, rfl⟩ ih

end Cuts

theorem widths_fourBytes : widths.FourBytes := ⟨rfl, rfl, rfl⟩

/-- The decoders read inside every read, and what they decode is the client's list, exactly
    if the reads that begin with `O`, `U` or `X` bring its requests one by one. -/
theorem requests_survive_delivery {requests : List Request}
    (fits : ∀ request ∈ requests, request.order.Fits widths)
    (delivery : Delivery widths requests) :
    decodeReads widths delivery.reads = .ok (requests.map Request.order) ↔
      Carries widths requests delivery.reads :=
  decodeReads_carries widths_fourBytes delivery.reads requests fits

def bidFive : Request := .sendOrder 'B'.toUInt8 [84, 83, 76, 65] 100 5

def modifySeven : Request := .sendModify 'S'.toUInt8 [84, 83, 76, 65] 7 110 9

def killEight : Request := .sendKill [84, 83, 76, 65] 8

def threeFrames : List Request := [bidFive, modifySeven, killEight]

theorem threeFrames_fits : ∀ request ∈ threeFrames, request.order.Fits widths := by
  intro request member
  simp only [threeFrames, List.mem_cons, List.not_mem_nil, or_false] at member
  rcases member with rfl | rfl | rfl <;> constructor <;> decide

/-- The first frame breaks off after its fields, the second, which has no padding, comes in one
    read, and the padding of the third comes in three. -/
def threeFramesCut : Delivery widths threeFrames where
  reads := [(bidFive.frame widths).take 14, (bidFive.frame widths).drop 14,
    modifySeven.frame widths, (killEight.frame widths).take 10,
    List.replicate 5 ' '.toUInt8, List.replicate 3 ' '.toUInt8]
  whole := by decide +kernel
  sizes := by decide +kernel

theorem threeFramesCut_padding : CutInPadding widths threeFrames threeFramesCut.reads := by
  refine ⟨[[(bidFive.frame widths).take 14, (bidFive.frame widths).drop 14],
    [modifySeven.frame widths], [(killEight.frame widths).take 10,
      List.replicate 5 ' '.toUInt8, List.replicate 3 ' '.toUInt8]], rfl, ?_⟩
  refine .cons ⟨_, _, rfl, ?_, ?_⟩ (.cons ⟨_, _, rfl, ?_, ?_⟩ (.cons ⟨_, _, rfl, ?_, ?_⟩ .nil)) <;>
    decide +kernel

theorem requests_survive_delivery_threeFrames :
    Carries widths threeFrames threeFramesCut.reads ∧
    decodeReads widths threeFramesCut.reads = .ok (threeFrames.map Request.order) := by
  have carries := carries_of_cutInPadding threeFramesCut_padding
  exact ⟨carries, (requests_survive_delivery threeFrames_fits threeFramesCut).mpr carries⟩

theorem bidFive_fits : ∀ request ∈ [bidFive], request.order.Fits widths := by
  intro request member
  rw [List.mem_singleton.mp member]
  constructor <;> decide

def bidFiveCut : Delivery widths [bidFive] where
  reads := [(bidFive.frame widths).take 1, (bidFive.frame widths).drop 1]
  whole := by decide +kernel
  sizes := by decide +kernel

/-- The decoder reads past the end of the first read. -/
theorem requests_survive_delivery_fails :
    (∀ request ∈ [bidFive], request.order.Fits widths) ∧
    decodeReads widths bidFiveCut.reads = .error .readPastEnd ∧
    decodeReads widths bidFiveCut.reads ≠ .ok [bidFive.order] := by
  have past : decodeReads widths bidFiveCut.reads = .error .readPastEnd := rfl
  refine ⟨bidFive_fits, past, ?_⟩
  rw [past]
  intro run
  cases run

end MarketBookExchange
