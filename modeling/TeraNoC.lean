import TeraNoC.Proofs.AddrMap
import TeraNoC.Proofs.DistributedMidend
import TeraNoC.Proofs.SplitMidend
import TeraNoC.Proofs.DmaPath
import TeraNoC.Proofs.TcdmAdapter
import TeraNoC.Proofs.SequentialMemory
import TeraNoC.Hw.BankMetadata
import TeraNoC.Hw.NocSystem
import TeraNoC.Lib.Transit
import TeraNoC.Proofs.NocDelivery
import TeraNoC.Proofs.NocOrder
import TeraNoC.Proofs.LrSc
import TeraNoC.Proofs.DmaLaunch
import TeraNoC.Proofs.LogBarrier
import TeraNoC.Proofs.LinLogBarrier
import TeraNoC.Proofs.Alloc
import TeraNoC.Proofs.TileCoherence
import TeraNoC.Proofs.WideOrder
import TeraNoC.Proofs.WorkShare
import TeraNoC.Proofs.Parallel
import TeraNoC.Proofs.L2Placement
import TeraNoC.Proofs.L2Bursts
import TeraNoC.Proofs.BankResponses
import TeraNoC.Proofs.Reservation
import TeraNoC.Hw.Wfi
import TeraNoC.Lib.CounterBarrier
import TeraNoC.Runtime.Barrier
import TeraNoC.Proofs.PlainBarrier
import TeraNoC.Proofs.StridedBarrier
import TeraNoC.Runtime.PartialBarrier
import TeraNoC.Proofs.PartialBarrier
import TeraNoC.Proofs.LogPartialBarrier
import TeraNoC.Lib.Ring
import TeraNoC.Systolic.Queue
import TeraNoC.Proofs.SystolicQueue
import TeraNoC.Systolic.Matmul
import TeraNoC.Proofs.SystolicLink
import TeraNoC.Proofs.SystolicMatrix
import TeraNoC.Proofs.SystolicPe
import TeraNoC.Proofs.SystolicMatmul
import TeraNoC.Proofs.HeapFrame
import TeraNoC.Systolic.Memory
import TeraNoC.Proofs.SystolicMemory
import TeraNoC.Proofs.SingleElection
import TeraNoC.Proofs.DynamicLoop
import TeraNoC.Proofs.ResponsePort
import TeraNoC.Hw.Remapper
import TeraNoC.Proofs.Remapper
import TeraNoC.Proofs.MallocExact
import TeraNoC.Dma.Completion
import TeraNoC.Proofs.Completion
import TeraNoC.Snitch.Instr
import TeraNoC.Snitch.Decoder
import TeraNoC.Snitch.Lsu
import TeraNoC.Snitch.Core
import TeraNoC.Proofs.Operands
import TeraNoC.Proofs.Issue
import TeraNoC.Spike.Memory
import TeraNoC.Proofs.DataLanes
import TeraNoC.Proofs.DspLanes
import TeraNoC.Proofs.PostIncrement
import TeraNoC.Lib.Scoreboard
import TeraNoC.Proofs.LsuTickets
import TeraNoC.Proofs.InOrder
import TeraNoC.Snitch.Dspu
import TeraNoC.Spike.Dsp
import TeraNoC.Lib.Extension
import TeraNoC.Proofs.Dspu
import TeraNoC.Lib.Views
import TeraNoC.Lib.While
import TeraNoC.Kernels.Dotp
import TeraNoC.Proofs.Dotp
import TeraNoC.Kernels.Matmul
import TeraNoC.Proofs.Matmul
import TeraNoC.Kernels.Axpy
import TeraNoC.Proofs.Axpy
import TeraNoC.Lib.Interleave
import TeraNoC.Kernels.Reduction
import TeraNoC.Proofs.Reduction
import TeraNoC.Proofs.HeapInit
import TeraNoC.Hw.L2Preload
import TeraNoC.Lib.Replay
import TeraNoC.Proofs.L2Preload
import TeraNoC.Proofs.WakeDecoding
import TeraNoC.Proofs.LsuIdTable
import TeraNoC.Lib.Division
import TeraNoC.Snitch.Serdiv
import TeraNoC.Proofs.Serdiv
import TeraNoC.Hw.SocPath
import TeraNoC.Proofs.SocPath
import TeraNoC.Proofs.SocDelivery
import TeraNoC.Proofs.SocAtomics
import TeraNoC.Kernels.FixedPoint
import TeraNoC.Proofs.FixedPoint
import TeraNoC.Kernels.Cholesky
import TeraNoC.Proofs.Cholesky
import TeraNoC.Kernels.LinearSolver
import TeraNoC.Proofs.LinearSolver
import TeraNoC.Kernels.Conv2d
import TeraNoC.Proofs.Conv2d
import TeraNoC.Kernels.MatmulTiled
import TeraNoC.Proofs.MatmulTiled
import TeraNoC.Kernels.Fft
import TeraNoC.Proofs.Fft
import TeraNoC.Proofs.FftParallel
import TeraNoC.Lib.Scatter
import TeraNoC.Proofs.FftVector
import TeraNoC.Kernels.FftFolded
import TeraNoC.Proofs.FftFolded
import TeraNoC.Kernels.Cmatmul
import TeraNoC.Lib.Tiling
import TeraNoC.Proofs.Cmatmul
import TeraNoC.Proofs.CmatmulGolden
import TeraNoC.Kernels.MatmulUnrolled
import TeraNoC.Proofs.MatmulUnrolled
import TeraNoC.Kernels.MatmulSimd
import TeraNoC.Proofs.MatmulSimd
import TeraNoC.Kernels.Conv2dI8
import TeraNoC.Proofs.Conv2dI8
import TeraNoC.Kernels.Chest
import TeraNoC.Proofs.Chest
import TeraNoC.Kernels.Mmse
import TeraNoC.Proofs.Mmse
import TeraNoC.Proofs.SquareRoot
import TeraNoC.Kernels.CholeskyQ16
import TeraNoC.Proofs.CholeskyQ16
import TeraNoC.Kernels.FftSerial
import TeraNoC.Proofs.FftSerial
import TeraNoC.Proofs.FftByTwo
import TeraNoC.Proofs.FoldedTransforms
import TeraNoC.Proofs.Routing
import TeraNoC.Proofs.DmaTransfer
import TeraNoC.Hw.AxiToReqrsp
import TeraNoC.Proofs.AxiToReqrsp
import TeraNoC.Proofs.BridgeDrains
