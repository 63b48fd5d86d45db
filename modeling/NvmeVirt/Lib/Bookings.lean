import Mathlib.Data.List.Pairwise
import Mathlib.Order.Basic

/-!
# Bookings

Resources that serve one request after the other.  Each resource has a time from
which on it is free; a booking takes one of them from such a time on and moves
its free time to where the booking stops.
-/

namespace NvmeVirt.Bookings

/-- One booking of a resource. -/
structure Booking (Resource Time : Type*) where
  resource : Resource
  start : Time
  stop : Time

variable {Resource Time : Type*} [Preorder Time]

/-- A booking that starts when its resource is free takes it to where it stops.
-/
structure Books (free free' : Resource → Time)
    (booking : Booking Resource Time) : Prop where
  starts : free booking.resource ≤ booking.start
  ordered : booking.start ≤ booking.stop
  stops : free' booking.resource = booking.stop
  others : ∀ other, other ≠ booking.resource → free' other = free other

/-- A list of bookings, one after the other. -/
inductive BooksAll : (Resource → Time) → List (Booking Resource Time) →
    (Resource → Time) → Prop
  | nil {free : Resource → Time} : BooksAll free [] free
  | cons {free mid free' : Resource → Time} {booking : Booking Resource Time}
      {rest : List (Booking Resource Time)} (hfirst : Books free mid booking)
      (hrest : BooksAll mid rest free') : BooksAll free (booking :: rest) free'

variable {free mid free' : Resource → Time} {booking : Booking Resource Time}
  {bookings : List (Booking Resource Time)}

/-- A booking never makes a resource free earlier. -/
theorem Books.mono (hbooks : Books free free' booking) : free ≤ free' := by
  intro other
  by_cases hother : other = booking.resource
  · subst hother
    calc free booking.resource ≤ booking.start := hbooks.starts
      _ ≤ booking.stop := hbooks.ordered
      _ = free' booking.resource := hbooks.stops.symm
  · exact (hbooks.others other hother).ge

namespace BooksAll

theorem mono (hall : BooksAll free bookings free') : free ≤ free' := by
  induction hall with
  | nil => exact le_rfl
  | cons hfirst _ ih => exact hfirst.mono.trans ih

/-- At the end no resource is free before all of its bookings have stopped. -/
theorem stop_le (hall : BooksAll free bookings free')
    (hmem : booking ∈ bookings) : booking.stop ≤ free' booking.resource := by
  induction hall with
  | nil => cases hmem
  | cons hfirst hrest ih =>
      rcases List.mem_cons.mp hmem with rfl | hmem
      · exact hfirst.stops.ge.trans (hrest.mono _)
      · exact ih hmem

theorem free_le_start (hall : BooksAll free bookings free')
    (hmem : booking ∈ bookings) : free booking.resource ≤ booking.start := by
  induction hall with
  | nil => cases hmem
  | cons hfirst hrest ih =>
      rcases List.mem_cons.mp hmem with rfl | hmem
      · exact hfirst.starts
      · exact (hfirst.mono _).trans (ih hmem)

/-- A booking of a resource starts after the earlier bookings of the resource
have stopped. -/
theorem pairwise (hall : BooksAll free bookings free') :
    bookings.Pairwise fun earlier later =>
      earlier.resource = later.resource → earlier.stop ≤ later.start := by
  induction hall with
  | nil => exact .nil
  | cons hfirst hrest ih =>
      refine .cons (fun later hlater hsame => ?_) ih
      rw [← hfirst.stops, hsame]
      exact hrest.free_le_start hlater

end BooksAll

end NvmeVirt.Bookings
