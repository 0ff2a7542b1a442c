import HyperLogLog.Preamble
import HyperLogLog.Sketch.Run
import HyperLogLog.Proofs.Preamble
import HyperLogLog.Proofs.Coupon
import HyperLogLog.Proofs.Precision
import HyperLogLog.Proofs.Outcome
import HyperLogLog.Proofs.OverflowMap.Probe
import HyperLogLog.Proofs.OverflowMap.Contents
import HyperLogLog.Proofs.OverflowMap.Equality
import HyperLogLog.Proofs.Registers.Bank
import HyperLogLog.Proofs.Registers.Nibbles
import HyperLogLog.Proofs.Registers.OffsetArray
import HyperLogLog.Proofs.Registers.OctetArray
import HyperLogLog.Proofs.Registers.SixBitArray
import HyperLogLog.Proofs.Registers.Basic
import HyperLogLog.Proofs.Accumulator.Baseline
import HyperLogLog.Proofs.Sketch.Plain
import HyperLogLog.Proofs.Sketch.Simulation
import HyperLogLog.Proofs.Sketch.Reachable
import HyperLogLog.Proofs.Sketch.Lockstep
import HyperLogLog.Proofs.Sketch.Minimum
import HyperLogLog.Proofs.Registers.Exceptions
import HyperLogLog.Proofs.Sketch.Overflow
import HyperLogLog.Proofs.Double.Exact
import HyperLogLog.Proofs.Accumulator.Sums
import HyperLogLog.Proofs.Double.Sign
import HyperLogLog.Proofs.Double.Sums
import HyperLogLog.Proofs.Sketch.Conversion
import HyperLogLog.Proofs.OverflowMap.Refinement
import HyperLogLog.Proofs.OverflowMap.Search
import HyperLogLog.Proofs.Sketch.Safety
import HyperLogLog.Proofs.Sketch.Maximum
import HyperLogLog.Proofs.Accumulator.Exact
import HyperLogLog.Proofs.Sketch.Rounding
import HyperLogLog.Proofs.Sketch.OutOfOrder
import HyperLogLog.Proofs.Accumulator.Growth
import HyperLogLog.Proofs.Sketch.Growth
import HyperLogLog.Proofs.Accumulator.Bounds
import HyperLogLog.Proofs.Sketch.Bounds
import HyperLogLog.Proofs.Estimate.TableOrder
import HyperLogLog.Proofs.Estimate.CompositeTable
import HyperLogLog.Proofs.Estimate.Harmonic
import HyperLogLog.Proofs.Estimate.Lagrange
import HyperLogLog.Proofs.Accumulator.Composite
import HyperLogLog.Proofs.Accumulator.Crossing
import HyperLogLog.Proofs.Sketch.CompositeBounds
import HyperLogLog.Proofs.Registers.WellFormed
import HyperLogLog.Proofs.Registers.Rising
import HyperLogLog.Proofs.Registers.Packing
import HyperLogLog.Proofs.Sketch.Equality
import HyperLogLog.Proofs.Registers.Conversion
import HyperLogLog.Proofs.Sketch.CompositeEstimate
