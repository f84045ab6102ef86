import Mathlib.Data.List.Basic

/- A stream of frames, each a head and a body whose length the head tells, and its reader. -/
namespace Frames
variable {α : Type*}

structure Frame (α : Type*) where
  head : α
  body : List α
  deriving DecidableEq, Repr

def Frame.symbols (frame : Frame α) : List α := frame.head :: frame.body

/-- The frame of which a part has been read, and those read before it. -/
structure Reader (α : Type*) where
  current : Option (Frame α) := none
  frames : List (Frame α) := []
  deriving DecidableEq, Repr

/-- One symbol more. A head whose length is zero is skipped. -/
def Reader.next (length : α → Nat) (reader : Reader α) (a : α) : Reader α :=
  match reader.current with
  | none => if length a = 0 then reader else { reader with current := some ⟨a, []⟩ }
  | some ⟨head, body⟩ =>
    if (body ++ [a]).length < length head then
      { reader with current := some ⟨head, body ++ [a]⟩ }
    else { current := none, frames := reader.frames ++ [⟨head, body ++ [a]⟩] }

def Reader.read (length : α → Nat) (reader : Reader α) (stream : List α) : Reader α :=
  stream.foldl (Reader.next length) reader

def Frame.Sized (length : α → Nat) (frame : Frame α) : Prop :=
  frame.body ≠ [] ∧ frame.body.length = length frame.head

variable {length : α → Nat}

theorem read_append (reader : Reader α) (stream more : List α) :
    reader.read length (stream ++ more) = (reader.read length stream).read length more :=
  List.foldl_append

theorem read_body {head : α} {frames : List (Frame α)} (rest : List α) : ∀ got : List α,
    rest ≠ [] → (got ++ rest).length = length head →
      Reader.read length ⟨some ⟨head, got⟩, frames⟩ rest =
        ⟨none, frames ++ [⟨head, got ++ rest⟩]⟩ := by
  induction rest with
  | nil => exact fun _ nonempty => absurd rfl nonempty
  | cons a rest ih =>
    intro got _ sized
    unfold Reader.read at ih ⊢
    rw [List.foldl_cons]
    unfold Reader.next
    simp only
    cases rest with
    | nil =>
      rw [if_neg (by omega)]
      rfl
    | cons b rest =>
      rw [if_pos (by simp only [List.length_append, List.length_cons, List.length_nil] at sized ⊢; omega)]
      have later := ih (got ++ [a]) (by simp) (by rw [List.append_assoc]; exact sized)
      rw [List.append_assoc] at later
      exact later

theorem read_frame {frame : Frame α} (sized : frame.Sized length) (frames : List (Frame α)) :
    Reader.read length ⟨none, frames⟩ frame.symbols = ⟨none, frames ++ [frame]⟩ := by
  obtain ⟨present, whole⟩ := sized
  have positive : length frame.head ≠ 0 := by
    have := List.length_pos_of_ne_nil present
    omega
  have head : Reader.read length ⟨none, frames⟩ frame.symbols =
      Reader.read length ⟨some ⟨frame.head, []⟩, frames⟩ frame.body := by
    unfold Reader.read Frame.symbols
    rw [List.foldl_cons]
    unfold Reader.next
    simp only [if_neg positive]
  rw [head]
  exact read_body frame.body [] present whole

/-- The reader takes any sequence of frames apart again. -/
theorem read_frames (sent : List (Frame α)) : ∀ frames : List (Frame α),
    (∀ frame ∈ sent, frame.Sized length) →
      Reader.read length ⟨none, frames⟩ (sent.map Frame.symbols).flatten =
        ⟨none, frames ++ sent⟩ := by
  induction sent with
  | nil =>
    intro frames _
    rw [List.append_nil]
    rfl
  | cons frame sent ih =>
    intro frames sized
    rw [List.map_cons, List.flatten_cons, read_append, read_frame (sized frame (by simp)),
      ih _ fun f member => sized f (List.mem_cons_of_mem _ member), List.append_assoc]
    rfl

end Frames
