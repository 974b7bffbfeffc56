import CE213Lab.Foundation.Machine
import CE213Lab.Foundation.Simulation
import CE213Lab.Foundation.Progress
import CE213Lab.Foundation.Queue
import CE213Lab.Foundation.Store
import CE213Lab.Foundation.Stride
import CE213Lab.Foundation.Latch
import CE213Lab.Foundation.Selection
import CE213Lab.Foundation.RoundRobin
import CE213Lab.Foundation.BitField
import CE213Lab.Foundation.RowMajor
import CE213Lab.Foundation.TextFile
import CE213Lab.Foundation.SimulatorFile
import CE213Lab.DMA.FIFO
import CE213Lab.DMA.ReadMaster
import CE213Lab.DMA.WriteMaster
import CE213Lab.DMA.ControlSlave
import CE213Lab.DMA.DMAFinal
import CE213Lab.DMA.Run
import CE213Lab.DMA.FIFOQueue
import CE213Lab.DMA.Bench
import CE213Lab.DMA.Reset
import CE213Lab.DMA.Reader
import CE213Lab.DMA.ReadSequence
import CE213Lab.DMA.Buffering
import CE213Lab.DMA.Writer
import CE213Lab.DMA.Stages
import CE213Lab.DMA.Hold
import CE213Lab.DMA.LastWord
import CE213Lab.DMA.Repeats
import CE213Lab.DMA.Conservation
import CE213Lab.DMA.Pace
import CE213Lab.DMA.Containment
import CE213Lab.DMA.FlowControl
import CE213Lab.DMA.Latency
import CE213Lab.DMA.Completion
import CE213Lab.DMA.ServedCopy
import CE213Lab.DMA.SharedSlaves
import CE213Lab.DMA.Throughput
import CE213Lab.DMA.Copy
import CE213Lab.DMA.Restart
import CE213Lab.DMA.Handshake
import CE213Lab.DMA.Snapshot
import CE213Lab.DMA.Accesses
import CE213Lab.DMA.StatusReads
import CE213Lab.DMA.HelloWorld
import CE213Lab.System.Arbitrator
import CE213Lab.System.CmdXbarMux
import CE213Lab.System.MuxFairness
import CE213Lab.System.SCFIFO
import CE213Lab.System.MasterAgent
import CE213Lab.System.SlavePort
import CE213Lab.System.SlavePath
import CE213Lab.System.MemoryPort
import CE213Lab.System.MemoryPath
import CE213Lab.System.DMASystem
import CE213Lab.System.ControlPath
import CE213Lab.System.DataMaster
import CE213Lab.System.CPUSystem
import CE213Lab.System.MainProgram
import CE213Lab.ImageProcessing.MedianFilter
import CE213Lab.ImageProcessing.TbMedianFilter
import CE213Lab.ImageProcessing.GoldenModel
import CE213Lab.ImageProcessing.ImageToGrayscale
import CE213Lab.ImageProcessing.CompareImage
import CE213Lab.ImageProcessing.HexToBmp
import CE213Lab.ImageProcessing.BitmapToHex
import CE213Lab.ImageProcessing.FilterChain
import CE213Lab.ImageProcessing.TbImageToGrayscale
import CE213Lab.ImageProcessing.ImgToHex
import CE213Lab.StudentIDSM.FsmStudentID
import CE213Lab.StudentIDSM.ClockDivider
