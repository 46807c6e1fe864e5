import NuWicam.Rtsp.Segments
import NuWicam.Rtsp.Binding
import NuWicam.Rtsp.Channels
import NuWicam.Rtsp.Counting
import NuWicam.Rtsp.Orphans
import NuWicam.Rtsp.Demand
import NuWicam.Rtsp.Gate
import NuWicam.Rtsp.Interleaved
import NuWicam.Rtsp.Tunnel
import NuWicam.Rtsp.Decode
import NuWicam.Rtsp.Exchanger
import NuWicam.Rtsp.TeardownFrame
import NuWicam.Cgi.Atomic
import NuWicam.Rtsp.Locations
import NuWicam.Rtsp.Pool
import NuWicam.Rtsp.AuthHeader
import NuWicam.Event.Rate
import NuWicam.Rtsp.Rtcp
import NuWicam.Rtsp.JpegPicture
import NuWicam.Rtsp.Delivery
import NuWicam.Rtsp.SenderReport
import NuWicam.Media.RateControl
import NuWicam.Rtsp.UdpPorts
import NuWicam.Media.Recorder
import NuWicam.Media.TextLeftovers
import NuWicam.Cgi.Update
import NuWicam.Cgi.Response
import NuWicam.Kernel.Freshness
import NuWicam.Media.ImgClip
import NuWicam.Kernel.PlaneLayout
import NuWicam.Kernel.Window
import NuWicam.Kernel.JpegPages
import NuWicam.Kernel.JpegRing
import NuWicam.Kernel.AdcCapture
import NuWicam.Kernel.JpegScale
import NuWicam.Kernel.JpegTables
import NuWicam.Kernel.NandNesting
import NuWicam.Event.SoftQueue
import NuWicam.Kernel.NandCorrection
import NuWicam.Kernel.NandParity
import NuWicam.Kernel.Rtc
import NuWicam.Rtsp.Isolation
import NuWicam.Media.Alaw
